import Mathlib.Data.List.DropRight
import Syntagma.Proofs.Lexing.Coverage

/-! The events of reading. Each character that joins a word is told with the states it leads from
and to, a character that ends one with the state it finds no link from, and each token as it is
emitted. The events that can be told so far are a relation with a rule for each kind; the loop stays
inside it, and what it tells of a script is read off the rules. -/

namespace Syntagma

namespace TraceEvent

/-- The token that was emitted. -/
def emitted? : TraceEvent → Option Token
  | .tokenEmitted token => some token
  | _ => none

/-- The character that joined a word. -/
def taken? : TraceEvent → Option Char
  | .lexerStep symbol _ (some _) => some symbol
  | _ => none

/-- The state that a character led to, if it led to one. -/
def target? : TraceEvent → Option (Option StateId)
  | .lexerStep _ _ target => some target
  | _ => none

/-- The events since the last token was emitted. -/
def sinceToken (events : List TraceEvent) : List TraceEvent :=
  events.rtakeWhile (fun e => e.emitted?.isNone)

/-- The state that the characters since the last token have led to, from the start if there are
none; no state if the last of them found no link. -/
def reached (start : StateId) (events : List TraceEvent) : Option StateId :=
  ((sinceToken events).filterMap target?).getLast?.getD (some start)

variable (events : List TraceEvent) (start source : StateId) (target : Option StateId)
  (symbol : Char) (token : Token)

@[simp] theorem sinceToken_emitted : sinceToken (events ++ [.tokenEmitted token]) = [] :=
  List.rtakeWhile_concat_neg _ _ _ Bool.false_ne_true

@[simp] theorem sinceToken_step : sinceToken (events ++ [.lexerStep symbol source target]) =
    sinceToken events ++ [.lexerStep symbol source target] :=
  List.rtakeWhile_concat_pos _ _ _ rfl

@[simp] theorem reached_emitted :
    reached start (events ++ [.tokenEmitted token]) = some start := by
  simp [reached]

@[simp] theorem reached_step :
    reached start (events ++ [.lexerStep symbol source target]) = target := by
  simp [reached, List.filterMap_append, target?]

end TraceEvent

open TraceEvent

namespace Lexer

/-- An event of reading is true, with those told before it. The characters told in front of a token
spell it, unless it is a single character that no word begins with. A character is read in the state
that the one before it has led to, and leads where the automaton says. -/
def IsTrue (lexer : Lexer) (before : List TraceEvent) : TraceEvent → Prop
  | .tokenEmitted token => (sinceToken before).filterMap taken? = token.name.toList ∨
      sinceToken before = [] ∧ lexer.IsStray token
  | .lexerStep symbol source target => reached lexer.automaton.start before = some source ∧
      lexer.automaton.step? source symbol = target
  | _ => False

/-- The events tell of these tokens, and of all else only what is true. -/
structure Tells (lexer : Lexer) (tokens : List Token) (events : List TraceEvent) : Prop where
  emitted : events.filterMap emitted? = tokens
  isTrue (before : List TraceEvent) (e : TraceEvent) (after : List TraceEvent) :
    events = before ++ e :: after → lexer.IsTrue before e

/-- What can have been told, the word that is being read, the state it has led to, unless it has
ended there, and the tokens emitted. -/
inductive Told (lexer : Lexer) :
    List TraceEvent → List Char → Option StateId → List Token → Prop where
  | start : Told lexer [] [] (some lexer.automaton.start) []
  | take {events : List TraceEvent} {word : List Char} {state : StateId} {next : StateId}
    {tokens : List Token} {c : Char} (h : Told lexer events word (some state) tokens)
    (hstep : lexer.automaton.step? state c = some next) :
    Told lexer (events ++ [.lexerStep c state (some next)]) (word ++ [c]) (some next) tokens
  | stop {events : List TraceEvent} {word : List Char} {state : StateId} {tokens : List Token}
    {c : Char} (h : Told lexer events word (some state) tokens) (hne : word ≠ [])
    (hstep : lexer.automaton.step? state c = none) :
    Told lexer (events ++ [.lexerStep c state none]) word none tokens
  | word {events : List TraceEvent} {word : List Char} {state : Option StateId}
    {tokens : List Token} {token : Token} (h : Told lexer events word state tokens)
    (hname : token.name = String.ofList word) :
    Told lexer (events ++ [.tokenEmitted token]) [] (some lexer.automaton.start)
      (tokens ++ [token])
  | stray {events : List TraceEvent} {tokens : List Token} {token : Token}
    (h : Told lexer events [] (some lexer.automaton.start) tokens) (hstray : lexer.IsStray token) :
    Told lexer (events ++ [.tokenEmitted token]) [] (some lexer.automaton.start)
      (tokens ++ [token])

variable {lexer : Lexer} {events : List TraceEvent} {word : List Char} {state : Option StateId}
  {tokens : List Token} {r : Reading} {c : Char}

/-! ### What is told is true -/

namespace Told

theorem emitted (h : lexer.Told events word state tokens) : events.filterMap emitted? = tokens := by
  induction h with
  | start => rfl
  | take _ _ ih => simp [emitted?, ih]
  | stop _ _ _ ih => simp [emitted?, ih]
  | word _ _ ih => simp [emitted?, ih]
  | stray _ _ ih => simp [emitted?, ih]

theorem spelled (h : lexer.Told events word state tokens) :
    (sinceToken events).filterMap taken? = word := by
  induction h with
  | start => rfl
  | take _ _ ih => simp [taken?, ih]
  | stop _ _ _ ih => simp [taken?, ih]
  | word _ _ _ => simp
  | stray _ _ _ => simp

theorem reached_eq (h : lexer.Told events word state tokens) :
    reached lexer.automaton.start events = state := by
  cases h with
  | start => rfl
  | _ => simp

theorem sinceToken_eq_nil (h : lexer.Told events word state tokens) (hnil : word = []) :
    sinceToken events = [] := by
  cases h with
  | start => rfl
  | take => simp at hnil
  | stop _ hne _ => exact absurd hnil hne
  | word => simp
  | stray => simp

end Told

/-- An event in a longer list is the last one, or one of the list before. -/
theorem append_one_eq {last e : TraceEvent} {before after : List TraceEvent}
    (h : events ++ [last] = before ++ e :: after) :
    (before = events ∧ e = last) ∨ ∃ after', events = before ++ e :: after' := by
  rcases List.eq_nil_or_concat after with rfl | ⟨after', x, rfl⟩
  · obtain ⟨rfl, hlast⟩ := List.append_inj' h rfl
    exact .inl ⟨rfl, (List.singleton_inj.1 hlast).symm⟩
  · rw [List.concat_eq_append, ← List.cons_append, ← List.append_assoc] at h
    exact .inr ⟨after', (List.append_inj' h rfl).1⟩

/-- What has been told up to any moment is true. -/
theorem Told.tells (h : lexer.Told events word state tokens) : lexer.Tells tokens events := by
  refine ⟨h.emitted, fun before e after heq => ?_⟩
  induction h generalizing after with
  | start => simp at heq
  | take h hstep ih =>
    rcases append_one_eq heq with ⟨rfl, rfl⟩ | ⟨after', heq⟩
    · exact ⟨h.reached_eq, hstep⟩
    · exact ih after' heq
  | stop h _ hstep ih =>
    rcases append_one_eq heq with ⟨rfl, rfl⟩ | ⟨after', heq⟩
    · exact ⟨h.reached_eq, hstep⟩
    · exact ih after' heq
  | word h hname ih =>
    rcases append_one_eq heq with ⟨rfl, rfl⟩ | ⟨after', heq⟩
    · exact .inl (by rw [h.spelled, hname, String.toList_ofList])
    · exact ih after' heq
  | stray h hstray ih =>
    rcases append_one_eq heq with ⟨rfl, rfl⟩ | ⟨after', heq⟩
    · exact .inr ⟨h.sinceToken_eq_nil rfl, hstray⟩
    · exact ih after' heq

/-- All that is told is steps and tokens. -/
theorem Tells.channel_eq (h : lexer.Tells tokens events) : ∀ e ∈ events, e.channel = .lexing := by
  intro e he
  obtain ⟨before, after, heq⟩ := List.append_of_mem he
  have htrue := h.isTrue before e after heq
  cases e with
  | lexerStep => rfl
  | tokenEmitted => rfl
  | _ => exact htrue.elim

/-! ### The loop tells nothing else -/

/-- What a reading has told. -/
def HasTold (lexer : Lexer) (r : Reading) : Prop :=
  lexer.Told r.events.reverse r.lexeme.reverse (some r.state) r.tokens.reverse

theorem HasTold.state_eq (h : lexer.HasTold r) (hnil : r.lexeme = []) :
    r.state = lexer.automaton.start := by
  have hreached := h.reached_eq
  rw [reached, h.sinceToken_eq_nil (by simp [hnil])] at hreached
  exact (Option.some.inj hreached).symm

theorem HasTold.take (h : lexer.HasTold r) {next : StateId}
    (hstep : lexer.automaton.step? r.state c = some next) :
    lexer.HasTold (Lexer.take r c next) := by
  unfold HasTold
  simp only [Lexer.take, List.reverse_cons]
  exact Told.take h hstep

/-- A word is named by its characters, however it came to its end. -/
theorem hasTold_finishToken {ends : Option StateId}
    (h : lexer.Told r.events.reverse r.lexeme.reverse ends r.tokens.reverse) :
    lexer.HasTold (lexer.finishToken r) := by
  unfold HasTold
  simp only [finishToken, emit, List.reverse_cons]
  exact .word h (resolve_name _ _ _ _)

theorem HasTold.begin (h : lexer.HasTold r) (hnil : r.lexeme = []) (c : Char) :
    lexer.HasTold (lexer.begin r c) := by
  have hstart := h.state_eq hnil
  unfold Lexer.begin
  cases hstep : lexer.automaton.step? r.state c with
  | some next => exact h.take hstep
  | none =>
    dsimp only
    unfold Lexer.skip
    split
    next hinfo =>
      rw [hstart] at hstep
      unfold HasTold at h ⊢
      rw [hnil, hstart] at h
      simp only [emit, hnil, hstart, List.reverse_cons]
      exact .stray h ⟨rfl, c, rfl, hstep, hinfo⟩
    · exact h

theorem HasTold.feed (h : lexer.HasTold r) (c : Char) : lexer.HasTold (lexer.feed r c) := by
  have hcursor {read : Reading} (hread : lexer.HasTold read) (cursor : Position) :
      lexer.HasTold { read with cursor := cursor } := hread
  unfold Lexer.feed
  refine hcursor ?_ _
  split
  next hempty => exact h.begin (List.isEmpty_iff.1 hempty) c
  next hempty =>
    cases hstep : lexer.automaton.step? r.state c with
    | some next => exact h.take hstep
    | none =>
      have hne : r.lexeme.reverse ≠ [] := by simpa using hempty
      have hstop := Told.stop h hne hstep
      rw [← List.reverse_cons] at hstop
      exact (hasTold_finishToken
        (r := { r with events := .lexerStep c r.state none :: r.events }) hstop).begin rfl c

theorem hasTold_readAll (lexer : Lexer) (script : List Char) :
    lexer.HasTold (lexer.readAll script) := by
  have hread : ∀ (script : List Char) (r : Reading), lexer.HasTold r →
      lexer.HasTold (script.foldl lexer.feed r) := by
    intro script
    induction script with
    | nil => exact fun r h => h
    | cons c rest ih => exact fun r h => ih _ (h.feed c)
  unfold readAll finish
  split
  · exact hread script _ .start
  · exact hasTold_finishToken (hread script _ .start)

/-- What is told while a script is read is true of the tokens found. -/
theorem tells_run (lexer : Lexer) (script : String) :
    lexer.Tells (lexer.run script).1.tokens (lexer.run script).2 := by
  unfold run
  split
  · exact Told.tells .start
  · exact (hasTold_readAll lexer _).tells

end Lexer

end Syntagma
