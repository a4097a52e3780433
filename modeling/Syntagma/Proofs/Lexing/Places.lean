import Syntagma.Proofs.Lexing.Coverage
import Syntagma.Proofs.Lexing.ListedTerminals

/-! What the position of a token tells. Its offset is that of its first character. Its row and column
are reckoned backwards from its end, by one column for each character: they are those of its first
character if every character of the token is one column wide, and the row is too low whenever the
token has a line feed. A stray character is placed where it is. -/

namespace Syntagma.Lexer

variable {lexer : Lexer} {options : LexerOptions} {rest text : List Char} {p : Position}
  {tokens : List Token}

/-- A character that moves the cursor by one column. -/
def IsOneColumn (options : LexerOptions) (c : Char) : Prop :=
  c ≠ '\n' ∧ c ≠ '\r' ∧ (c = '\t' → options.tabWidth = 1)

instance (options : LexerOptions) (c : Char) : Decidable (IsOneColumn options c) :=
  inferInstanceAs (Decidable (_ ∧ _ ∧ (_ → _)))

theorem advance_of_isOneColumn {c : Char} (h : IsOneColumn options c) :
    advance options p c = ⟨p.row, Position.word (p.column + 1), p.offset + 1⟩ := by
  obtain ⟨hfeed, hreturn, htab⟩ := h
  unfold advance
  by_cases ht : c = '\t'
  · simp [ht, htab ht]
  · simp [ht, hfeed, hreturn]

/-- Text of such characters ends in the row where it starts, one column further for each, as long as
columns are not counted past a word. -/
theorem advanceOver_of_isOneColumn (h : ∀ c ∈ text, IsOneColumn options c)
    (hfits : p.column + text.length < 0x10000000000000000) :
    advanceOver options p text = ⟨p.row, p.column + text.length, p.offset + text.length⟩ := by
  induction text generalizing p with
  | nil => rfl
  | cons c text ih =>
    obtain ⟨hc, htext⟩ := List.forall_mem_cons.1 h
    rw [List.length_cons] at hfits
    have hstep : advance options p c = ⟨p.row, p.column + 1, p.offset + 1⟩ := by
      rw [advance_of_isOneColumn hc, Position.word_of_lt (by omega)]
    have hrest := ih (p := advance options p c) htext (by rw [hstep]; simpa using by omega)
    rw [advanceOver, List.foldl_cons, ← advanceOver, hrest, hstep, List.length_cons]
    simp only [Position.mk.injEq, true_and]
    omega

theorem back_advanceOver (h : ∀ c ∈ text, IsOneColumn options c)
    (hfits : p.column + text.length < 0x10000000000000000) :
    (advanceOver options p text).back text.length = p := by
  rw [advanceOver_of_isOneColumn h hfits]
  simp [Position.back]

/-- A text ends as many rows below its start as it has line feeds. -/
theorem row_advanceOver (options : LexerOptions) (p : Position) (text : List Char) :
    (advanceOver options p text).row = p.row + text.count '\n' := by
  induction text generalizing p with
  | nil => rfl
  | cons c text ih =>
    have hstep : (advance options p c).row = p.row + if c = '\n' then 1 else 0 := by
      unfold advance
      by_cases ht : c = '\t'
      · simp [ht]
      · by_cases hfeed : c = '\n'
        · simp [hfeed]
        · by_cases hreturn : c = '\r' <;> simp [hfeed, ht, hreturn]
    rw [advanceOver, List.foldl_cons, ← advanceOver, ih, hstep, List.count_cons, Nat.add_assoc]
    simp only [beq_iff_eq, Nat.add_comm]

/-- The place behind the characters in front of a token. -/
def placeOf (options : LexerOptions) (script : List Char) (t : Token) : Position :=
  advanceOver options .start (script.take t.position.offset)

/-- A token is placed where it starts, or by going back from its end. -/
def Placed (lexer : Lexer) (script : List Char) (t : Token) : Prop :=
  (lexer.IsStray t ∧ t.position = placeOf lexer.options script t) ∨
    (¬lexer.IsStray t ∧ t.position =
      (advanceOver lexer.options (placeOf lexer.options script t) t.name.toList).back t.name.length)

theorem not_isStray_tokenOf {word : List Char} {state : StateId}
    (hwalk : lexer.automaton.walk? lexer.automaton.start word = some state) :
    ¬lexer.IsStray (lexer.tokenOf p word state) := by
  rintro ⟨-, c, hname, hstep, -⟩
  have hword : word = [c] := by
    rw [← String.toList_ofList (l := word), ← tokenOf_name lexer p word state, hname,
      String.toList_singleton]
  rw [hword, FiniteAutomaton.walk?, hstep] at hwalk
  cases hwalk

theorem placeOf_eq {before behind : List Char} {t : Token}
    (hp : p = advanceOver options .start before) (ht : t.position.offset = p.offset) :
    placeOf options (before ++ behind) t = p := by
  have hlength : p.offset = before.length := by
    rw [hp, offset_advanceOver]
    exact Nat.zero_add _
  rw [placeOf, ht, hlength, List.take_left, hp]

theorem advance_eq_advanceOver {before : List Char} (hp : p = advanceOver options .start before)
    (c : Char) : advance options p c = advanceOver options .start (before ++ [c]) := by
  rw [advanceOver_append, ← hp]
  rfl

/-- The tokens of a cut are placed, seen from the whole script. -/
theorem Cuts.placed (h : lexer.Cuts rest p text tokens) {before : List Char}
    (hp : p = advanceOver lexer.options .start before) :
    ∀ t ∈ tokens, lexer.Placed (before ++ (text ++ rest)) t := by
  induction h generalizing before with
  | nil p => exact List.forall_mem_nil _
  | @word p word text state tokens hne hwalk hend _ ih =>
    have hword : advanceOver lexer.options p word =
        advanceOver lexer.options .start (before ++ word) := by rw [advanceOver_append, ← hp]
    have hrest := ih hword
    simp only [List.append_assoc] at hrest ⊢
    refine List.forall_mem_cons.2 ⟨.inr ⟨not_isStray_tokenOf hwalk, ?_⟩, hrest⟩
    rw [placeOf_eq hp (tokenOf_offset ..), tokenOf_name, String.toList_ofList, String.length_ofList]
    exact resolve_position ..
  | @stray p c text tokens hstep hinfo _ ih =>
    have hrest := ih (advance_eq_advanceOver hp c)
    simp only [List.append_assoc, List.singleton_append] at hrest
    refine List.forall_mem_cons.2 ⟨.inl ⟨⟨rfl, c, rfl, hstep, hinfo⟩, ?_⟩, hrest⟩
    rw [placeOf_eq hp rfl]
    rfl
  | @passed p c text tokens hstep hinfo _ ih =>
    have hrest := ih (advance_eq_advanceOver hp c)
    simp only [List.append_assoc, List.singleton_append] at hrest
    exact hrest

/-- Where tokens are placed. The offset is always that of the first character. Row and column are
those of the place behind the characters in front, for a stray character and for every token whose
characters are one column wide; for others they are reckoned from the end of the token. The row is
that of the first character exactly if the token has no line feed or is a stray character. -/
theorem run_positions (lexer : Lexer) (script : String) (hblank : ¬Text.isBlankText script) :
    ∀ t ∈ (lexer.run script).1.tokens,
      slice script.toList t.position.offset t.endOffset = t.name.toList ∧
      (lexer.IsStray t → t.position = placeOf lexer.options script.toList t) ∧
      ((∀ c ∈ t.name.toList, IsOneColumn lexer.options c) →
        (placeOf lexer.options script.toList t).column + t.name.length < 0x10000000000000000 →
        t.position = placeOf lexer.options script.toList t) ∧
      (¬lexer.IsStray t → t.position = (advanceOver lexer.options
        (placeOf lexer.options script.toList t) t.name.toList).back t.name.length) ∧
      (t.position.row = (placeOf lexer.options script.toList t).row ↔
        lexer.IsStray t ∨ '\n' ∉ t.name.toList) := by
  intro t ht
  have hcuts := cuts_readAll lexer script.toList
  rw [run, if_neg hblank] at ht
  have hempty : ([] : List Char).length = Position.start.offset := rfl
  have hstands := (hcuts.stands hempty t ht).2
  have hstart : Position.start = advanceOver lexer.options .start [] := rfl
  have hplaced := hcuts.placed hstart t ht
  simp only [List.append_nil, List.nil_append] at hstands hplaced
  refine ⟨hstands.slice_eq, ?_⟩
  obtain ⟨hstray, hposition⟩ | ⟨hstray, hposition⟩ := hplaced
  · refine ⟨fun _ => hposition, fun _ _ => hposition, fun hnot => absurd hstray hnot, ?_⟩
    exact iff_of_true (congrArg Position.row hposition) (.inl hstray)
  · refine ⟨fun hnot => absurd hnot hstray, fun hall hfits => ?_, fun _ => hposition, ?_⟩
    · rw [← String.length_toList] at hposition hfits
      exact hposition.trans (back_advanceOver hall hfits)
    · have hrow := (congrArg Position.row hposition).trans (row_advanceOver ..)
      rw [hrow, or_iff_right hstray, ← List.count_eq_zero]
      exact Nat.add_eq_left

/-- Notes, which may go on over tabs and line feeds. -/
def notes : GrammarDescription :=
  descriptionOf (.mk "Line" .medium
    [[.definition (.mk "Note" (.token "note" none)
      [[.definition (.mk "Char" (.symbolClass "char" "ab\t\n") [])],
        [.reference "Note", .reference "Char"]])]])

/-- Notes in one row are placed where they start, and so is what is no note. -/
theorem run_notes_in_a_row : ∃ g a, Grammar.compile notes {} = .ok g ∧
    FiniteAutomaton.ofGrammar g = .ok a ∧ ¬Text.isBlankText " ab#ba" ∧
    (run ⟨g, a, {}⟩ " ab#ba").1.tokens.map (·.name) = ["ab", "#", "ba"] ∧
    ∀ t ∈ (run ⟨g, a, {}⟩ " ab#ba").1.tokens, t.position = placeOf {} " ab#ba".toList t := by
  obtain ⟨g, a, hg, ha, hholds⟩ := GrammarDescription.exists_of_lexer notes
    (fun lexer => decide ((lexer.run " ab#ba").1.tokens.map (·.name) = ["ab", "#", "ba"]) &&
      (lexer.run " ab#ba").1.tokens.all (fun t =>
        decide ((placeOf {} " ab#ba".toList t).column + t.name.length < 10) &&
          t.name.toList.all (fun c => decide (IsOneColumn {} c)))) (by decide +kernel)
  simp only [Bool.and_eq_true, List.all_eq_true, decide_eq_true_eq] at hholds
  obtain ⟨hnames, hall⟩ := hholds
  have hblank : ¬Text.isBlankText " ab#ba" := by decide
  refine ⟨g, a, hg, ha, hblank, hnames, fun t ht => ?_⟩
  obtain ⟨hfits, hcolumns⟩ := hall t ht
  obtain ⟨-, -, hplace, -⟩ := run_positions ⟨g, a, {}⟩ " ab#ba" hblank t ht
  exact hplace hcolumns (Nat.lt_trans hfits (by decide))

/-- A note over two rows, and one with a tab, are not placed where they start. -/
theorem run_notes_over_rows : ∃ g a, Grammar.compile notes {} = .ok g ∧
    FiniteAutomaton.ofGrammar g = .ok a ∧ ∀ script ∈ ["a\nb", "a\tb"],
      ∃ t, (run ⟨g, a, {}⟩ script).1 = ⟨[t], []⟩ ∧ t.name = script ∧
        t.position ≠ placeOf {} script.toList t := by
  obtain ⟨g, a, hg, ha, hholds⟩ := GrammarDescription.exists_of_lexer notes
    (fun lexer => ["a\nb", "a\tb"].all (fun script => (lexer.run script).1.diagnostics.isEmpty &&
      decide ((lexer.run script).1.tokens.map (·.name) = [script]) &&
      (lexer.run script).1.tokens.all (fun t =>
        decide (t.position ≠ placeOf {} script.toList t)))) (by decide +kernel)
  refine ⟨g, a, hg, ha, fun script hscript => ?_⟩
  have hscript := List.all_eq_true.1 hholds script hscript
  simp only [Bool.and_eq_true, List.isEmpty_iff, List.all_eq_true, decide_eq_true_eq] at hscript
  obtain ⟨⟨hclean, hnames⟩, hall⟩ := hscript
  obtain ⟨t, ht, hname⟩ := List.map_eq_singleton_iff.1 hnames
  refine ⟨t, ?_, hname, hall t (by simp [ht])⟩
  rw [← ht, ← hclean]

end Syntagma.Lexer
