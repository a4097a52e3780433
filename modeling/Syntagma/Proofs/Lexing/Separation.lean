import Syntagma.Proofs.Lexing.Coverage
import Syntagma.Proofs.Lexing.ListedTerminals

/-! Separators. A character of no symbol class ends every word and begins none, so a script is cut in
front of it as if it ended there, and behind it as if it began there. Nothing that was read before
stays in sight: a text is cut in one way only, and its tokens are the same wherever it stands, save for
their places. -/

namespace Syntagma

/-- The same token `n` characters further on. Its row and column may be others. -/
structure Token.MovedBy (n : Nat) (t t' : Token) : Prop where
  name : t'.name = t.name
  id : t'.id = t.id
  classId : t'.classId = t.classId
  offset : t'.position.offset = t.position.offset + n

/-- No symbol class has the character. -/
def ClassTable.Separates (table : ClassTable) (c : Char) : Prop :=
  ∀ k ∈ table.symbolClasses, c ∉ k.symbols

instance (table : ClassTable) (c : Char) : Decidable (table.Separates c) :=
  inferInstanceAs (Decidable (∀ k ∈ table.symbolClasses, c ∉ k.symbols))

namespace ClassTable.Separates

variable {table : ClassTable} {a : FiniteAutomaton} {c : Char}

theorem symbolInfo (h : table.Separates c) : table.symbolInfo c =
    if c ∈ table.whiteDelimiters then .whiteDelimiter else .undefined := by
  have hnone : SymbolClass.firstWith table.symbolClasses c = none := by
    simpa [SymbolClass.firstWith, Separates] using h
  simp [ClassTable.symbolInfo, hnone]

/-- A separator has no link from any state. -/
theorem step? (h : a.classTable.Separates c) (state : StateId) : a.step? state c = none := by
  rw [FiniteAutomaton.step?, h.symbolInfo]
  split <;> rfl

end ClassTable.Separates

namespace Lexer

variable {lexer : Lexer} {rest rest' text : List Char} {p p' : Position} {tokens tokens' : List Token}
  {c : Char} {n : Nat}

/-! ### The same text elsewhere -/

theorem movedBy_resolve (lexer : Lexer) (text : String) (state : StateId)
    (hp : p'.offset = p.offset + n) :
    (lexer.resolve text state p).MovedBy n (lexer.resolve text state p') := by
  have hplace : lexer.resolve text state p' =
      { lexer.resolve text state p with position := p' } := by
    simp only [resolve]
    repeat' split
    all_goals rfl
  rw [hplace]
  exact ⟨rfl, rfl, rfl, by rw [resolve_position, hp]⟩

theorem movedBy_tokenOf (lexer : Lexer) (word : List Char) (state : StateId)
    (hp : p'.offset = p.offset + n) :
    (lexer.tokenOf p word state).MovedBy n (lexer.tokenOf p' word state) := by
  refine movedBy_resolve lexer _ state ?_
  simp only [Position.back, offset_advanceOver, Nat.add_sub_cancel, hp]

namespace Cuts

/-- Text that is cut at one place is cut in the same way at another. -/
theorem exists_moved (h : lexer.Cuts rest p text tokens) (hp : p'.offset = p.offset + n) :
    ∃ tokens', lexer.Cuts rest p' text tokens' ∧ List.Forall₂ (Token.MovedBy n) tokens tokens' := by
  have hone (c : Char) {p p' : Position} (hp : p'.offset = p.offset + n) :
      (advance lexer.options p' c).offset = (advance lexer.options p c).offset + n := by
    rw [offset_advance, offset_advance, hp]
    omega
  induction h generalizing p' with
  | nil p => exact ⟨[], .nil p', .nil⟩
  | @word p word _ state _ hne hwalk hend _ ih =>
    have hnext : (advanceOver lexer.options p' word).offset =
        (advanceOver lexer.options p word).offset + n := by
      rw [offset_advanceOver, offset_advanceOver, hp]
      omega
    obtain ⟨moved, hmoved, hall⟩ := ih hnext
    exact ⟨_, .word hne hwalk hend hmoved, .cons (movedBy_tokenOf lexer word state hp) hall⟩
  | @stray p c _ _ hstep hinfo _ ih =>
    obtain ⟨moved, hmoved, hall⟩ := ih (hone c hp)
    exact ⟨_, .stray hstep hinfo hmoved, .cons ⟨rfl, rfl, rfl, hp⟩ hall⟩
  | @passed p c _ _ hstep hinfo _ ih =>
    obtain ⟨moved, hmoved, hall⟩ := ih (hone c hp)
    exact ⟨moved, .passed hstep hinfo hmoved, hall⟩

/-- What ends every word may follow instead of what followed. -/
theorem before (h : lexer.Cuts rest p text tokens)
    (hrest : ∀ c ∈ rest'.head?, ∀ state, lexer.automaton.step? state c = none) :
    lexer.Cuts rest' p text tokens := by
  induction h with
  | nil p => exact .nil p
  | @word p word text state tokens hne hwalk hend _ ih =>
    refine .word hne hwalk (fun c hc => ?_) ih
    cases text with
    | nil => exact hrest c hc state
    | cons d text => exact hend c hc
  | stray hstep hinfo _ ih => exact .stray hstep hinfo ih
  | passed hstep hinfo _ ih => exact .passed hstep hinfo ih

/-! ### One way to cut -/

theorem eq_nil_of_walk_append {word more : List Char} {state state' : StateId}
    (hwalk : lexer.automaton.walk? lexer.automaton.start word = some state)
    (hend : ∀ c ∈ (more ++ rest).head?, lexer.automaton.step? state c = none)
    (hmore : lexer.automaton.walk? lexer.automaton.start (word ++ more) = some state') :
    more = [] := by
  cases more with
  | nil => rfl
  | cons c more =>
    rw [FiniteAutomaton.walk?_append, hwalk, Option.bind_some, FiniteAutomaton.walk?,
      hend c rfl] at hmore
    cases hmore

/-- Of two words that begin a text and end where no link goes on, neither is longer. -/
theorem word_eq {word word' text text' : List Char} {state state' : StateId}
    (hwalk : lexer.automaton.walk? lexer.automaton.start word = some state)
    (hend : ∀ c ∈ (text ++ rest).head?, lexer.automaton.step? state c = none)
    (hwalk' : lexer.automaton.walk? lexer.automaton.start word' = some state')
    (hend' : ∀ c ∈ (text' ++ rest).head?, lexer.automaton.step? state' c = none)
    (h : word ++ text = word' ++ text') : word = word' ∧ text = text' := by
  rcases List.append_eq_append_iff.1 h with ⟨more, rfl, rfl⟩ | ⟨more, rfl, rfl⟩
  · rw [List.append_assoc] at hend
    obtain rfl := eq_nil_of_walk_append hwalk hend hwalk'
    exact ⟨(List.append_nil _).symm, rfl⟩
  · rw [List.append_assoc] at hend'
    obtain rfl := eq_nil_of_walk_append hwalk' hend' hwalk
    exact ⟨List.append_nil _, rfl⟩

/-- No word begins with a character that has no link from the start. -/
theorem not_walk_of_step? {word more behind : List Char} {state : StateId} (hne : word ≠ [])
    (hwalk : lexer.automaton.walk? lexer.automaton.start word = some state)
    (hstep : lexer.automaton.step? lexer.automaton.start c = none) :
    word ++ more ≠ c :: behind := by
  cases word with
  | nil => exact absurd rfl hne
  | cons d word =>
    intro he
    obtain rfl := (List.cons.inj he).1
    rw [FiniteAutomaton.walk?, hstep] at hwalk
    cases hwalk

theorem unique (h : lexer.Cuts rest p text tokens) (h' : lexer.Cuts rest p text tokens') :
    tokens' = tokens := by
  induction h generalizing tokens' with
  | nil p => exact h'.eq_nil_of_text_eq_nil rfl
  | @word p word text state tokens hne hwalk hend _ ih =>
    generalize htext : word ++ text = whole at h'
    cases h' with
    | nil => exact absurd (List.append_eq_nil_iff.1 htext).1 hne
    | word _ hwalk' hend' hrest' =>
      obtain ⟨rfl, rfl⟩ := word_eq hwalk hend hwalk' hend' htext
      obtain rfl := Option.some.inj (hwalk.symm.trans hwalk')
      rw [ih hrest']
    | stray hstep _ _ => exact absurd htext (not_walk_of_step? hne hwalk hstep)
    | passed hstep _ _ => exact absurd htext (not_walk_of_step? hne hwalk hstep)
  | @stray p c text tokens hstep hinfo _ ih =>
    generalize htext : c :: text = whole at h'
    cases h' with
    | nil => cases htext
    | word hne hwalk _ _ => exact absurd htext.symm (not_walk_of_step? hne hwalk hstep)
    | stray _ _ hrest' =>
      cases htext
      rw [ih hrest']
    | passed _ hinfo' _ =>
      cases htext
      exact absurd hinfo hinfo'
  | @passed p c text tokens hstep hinfo _ ih =>
    generalize htext : c :: text = whole at h'
    cases h' with
    | nil => cases htext
    | word hne hwalk _ _ => exact absurd htext.symm (not_walk_of_step? hne hwalk hstep)
    | stray _ hinfo' _ =>
      cases htext
      exact absurd hinfo' hinfo
    | passed _ _ hrest' =>
      cases htext
      exact ih hrest'

end Cuts

/-! ### Scripts with a separator -/

/-- The token of a separator that is no white delimiter. -/
def separatorTokens (lexer : Lexer) (p : Position) (c : Char) : List Token :=
  if c ∈ lexer.automaton.classTable.whiteDelimiters then []
  else [.undefined (String.singleton c) p]

theorem cuts_separator (hc : lexer.automaton.classTable.Separates c) (p : Position) :
    lexer.Cuts rest p [c] (lexer.separatorTokens p c) := by
  have hinfo := hc.symbolInfo
  unfold separatorTokens
  split at hinfo
  next hwhite =>
    rw [if_pos hwhite]
    exact .passed (hc.step? _) (by simp [hinfo]) (.nil _)
  next hother =>
    rw [if_neg hother]
    exact .stray (hc.step? _) hinfo (.nil _)

theorem tokens_run (lexer : Lexer) {script : String} (hblank : ¬Text.isBlankText script) :
    (lexer.run script).1.tokens = (lexer.readAll script.toList).tokens.reverse := by
  rw [run, if_neg hblank]

theorem isBlankText_append (s t : String) :
    Text.isBlankText (s ++ t) = (Text.isBlankText s && Text.isBlankText t) := by
  simp [Text.isBlankText]

/-- A separator splits a script: in front of it stand the tokens of the text before it, then its own
token unless it is a white delimiter, and then the tokens of the text behind it, that much further
on. -/
theorem run_separated (lexer : Lexer) {x y : String} {c : Char} (hx : ¬Text.isBlankText x)
    (hy : ¬Text.isBlankText y) (hc : lexer.automaton.classTable.Separates c) :
    ∃ p moved, p.offset = x.length ∧
      (lexer.run (x ++ String.singleton c ++ y)).1.tokens =
        (lexer.run x).1.tokens ++ lexer.separatorTokens p c ++ moved ∧
      List.Forall₂ (Token.MovedBy (x.length + 1)) (lexer.run y).1.tokens moved := by
  have hwhole : ¬Text.isBlankText (x ++ String.singleton c ++ y) := by
    simp only [isBlankText_append, Bool.and_eq_true, not_and]
    exact fun h => absurd h.1 hx
  rw [tokens_run lexer hwhole, tokens_run lexer hx, tokens_run lexer hy]
  have hplace : (advanceOver lexer.options .start x.toList).offset = x.length := by
    rw [offset_advanceOver, String.length_toList]
    exact Nat.zero_add _
  -- the three pieces are cut one behind the other
  have hbefore : lexer.Cuts ((c :: y.toList) ++ []) .start x.toList
      (lexer.readAll x.toList).tokens.reverse := by
    refine (cuts_readAll lexer x.toList).before (fun d hd state => ?_)
    obtain rfl := Option.some.inj hd
    exact hc.step? state
  have hbehind : (advanceOver lexer.options .start (x.toList ++ [c])).offset =
      Position.start.offset + (x.length + 1) := by
    rw [offset_advanceOver, List.length_append, String.length_toList, List.length_singleton]
  obtain ⟨moved, hmoved, hall⟩ := (cuts_readAll lexer y.toList).exists_moved hbehind
  rw [advanceOver_append] at hmoved
  have hseparator (p : Position) : lexer.Cuts (y.toList ++ []) p [c] (lexer.separatorTokens p c) :=
    cuts_separator hc p
  have hcuts := hbefore.append ((hseparator _).append hmoved)
  refine ⟨_, moved, hplace, ?_, hall⟩
  have htext : (x ++ String.singleton c ++ y).toList = x.toList ++ (c :: y.toList) := by
    simp
  rw [htext, List.append_assoc]
  exact hcuts.unique (cuts_readAll lexer _)

/-- A word of one letter is no word, and the sign in it is of no class: the letters before and behind
the sign are read as if they stood alone. -/
theorem run_words_separated : ∃ g a, Grammar.compile words {} = .ok g ∧
    FiniteAutomaton.ofGrammar g = .ok a ∧ ¬Text.isBlankText "aba" ∧ ¬Text.isBlankText "if;b" ∧
    a.classTable.Separates '#' ∧ ∃ p moved, p.offset = 3 ∧
      (run ⟨g, a, {}⟩ "aba#if;b").1.tokens = (run ⟨g, a, {}⟩ "aba").1.tokens ++
        [.undefined "#" p] ++ moved ∧
      List.Forall₂ (Token.MovedBy 4) (run ⟨g, a, {}⟩ "if;b").1.tokens moved := by
  obtain ⟨g, a, hg, ha, hholds⟩ := GrammarDescription.exists_of_lexer words
    (fun lexer => decide (lexer.automaton.classTable.Separates '#' ∧
      '#' ∉ lexer.automaton.classTable.whiteDelimiters)) (by decide +kernel)
  obtain ⟨hc, hwhite⟩ := of_decide_eq_true hholds
  obtain ⟨p, moved, hp, htokens, hall⟩ := run_separated ⟨g, a, {}⟩ (x := "aba") (y := "if;b")
    (by decide) (by decide) hc
  rw [separatorTokens, if_neg hwhite] at htokens
  exact ⟨g, a, hg, ha, by decide, by decide, hc, p, moved, hp, htokens, hall⟩

end Lexer

end Syntagma
