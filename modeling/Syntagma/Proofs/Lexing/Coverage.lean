import Mathlib
import Syntagma.Proofs.Lexing.Cuts

/-! Where the tokens of a script stand. Their ranges follow each other inside the script, each is as
long as the automaton goes on or is a single character it knows nothing of, and what no token covers
is text that tokens do not begin with. The facts are read off the pieces of a cut, with the text in
front of the cut in sight, so that an offset in a piece is one in the script. -/

namespace Syntagma.Lexer

/-- The characters from one offset up to another. -/
def slice (script : List Char) (start stop : Nat) : List Char := (script.take stop).drop start

theorem slice_append_append (before word behind : List Char) :
    slice (before ++ (word ++ behind)) before.length (before.length + word.length) = word := by
  rw [slice, ← List.append_assoc, List.take_left' (by simp), List.drop_left]

/-- A word that the automaton reads from the start and cannot go on with. -/
def IsLongest (lexer : Lexer) (script : List Char) (t : Token) : Prop :=
  ∃ state, lexer.automaton.walk? lexer.automaton.start t.name.toList = some state ∧
    ∀ c ∈ script[t.endOffset]?, lexer.automaton.step? state c = none

/-- A single character that is of no class, separates nothing and begins no word. -/
def IsStray (lexer : Lexer) (t : Token) : Prop :=
  t.isUndefined ∧ ∃ c, t.name = String.singleton c ∧
    lexer.automaton.step? lexer.automaton.start c = none ∧
    lexer.automaton.classTable.symbolInfo c = .undefined

/-- A token whose range is one of the script and has its name as text. -/
structure Stands (lexer : Lexer) (script : List Char) (t : Token) : Prop where
  offset_lt : t.position.offset < t.endOffset
  endOffset_le : t.endOffset ≤ script.length
  slice_eq : slice script t.position.offset t.endOffset = t.name.toList
  piece : lexer.IsLongest script t ∨ lexer.IsStray t

/-- A character that no token begins with and that is known all the same. -/
def IsPassed (lexer : Lexer) (c : Char) : Prop :=
  lexer.automaton.classTable.symbolInfo c ≠ .undefined ∧
    lexer.automaton.step? lexer.automaton.start c = none

variable {lexer : Lexer} {rest text : List Char} {p : Position} {tokens : List Token}

theorem resolve_name (lexer : Lexer) (text : String) (state : StateId) (p : Position) :
    (lexer.resolve text state p).name = text := by
  simp only [resolve]
  repeat' split
  all_goals rfl

theorem resolve_position (lexer : Lexer) (text : String) (state : StateId) (p : Position) :
    (lexer.resolve text state p).position = p := by
  simp only [resolve]
  repeat' split
  all_goals rfl

theorem tokenOf_name (lexer : Lexer) (p : Position) (word : List Char) (state : StateId) :
    (lexer.tokenOf p word state).name = String.ofList word := resolve_name ..

theorem tokenOf_offset (lexer : Lexer) (p : Position) (word : List Char) (state : StateId) :
    (lexer.tokenOf p word state).position.offset = p.offset := by
  have hplace := offset_advanceOver lexer.options p word
  simp only [tokenOf, resolve_position, Position.back]
  omega

theorem tokenOf_endOffset (lexer : Lexer) (p : Position) (word : List Char) (state : StateId) :
    (lexer.tokenOf p word state).endOffset = p.offset + word.length := by
  rw [Token.endOffset, tokenOf_offset, tokenOf_name, String.length_ofList]

theorem undefined_endOffset (p : Position) (c : Char) :
    (Token.undefined (String.singleton c) p).endOffset = p.offset + 1 := by
  simp [Token.endOffset, Token.undefined]

theorem stands_tokenOf {before word behind : List Char} {state : StateId}
    (hp : before.length = p.offset) (hne : word ≠ [])
    (hwalk : lexer.automaton.walk? lexer.automaton.start word = some state)
    (hend : ∀ c ∈ behind.head?, lexer.automaton.step? state c = none) :
    lexer.Stands (before ++ (word ++ behind)) (lexer.tokenOf p word state) := by
  have hpos : 0 < word.length := List.length_pos_iff.mpr hne
  have hnext : (before ++ (word ++ behind))[p.offset + word.length]? = behind.head? := by
    rw [← hp, ← List.append_assoc, List.getElem?_append_right (by simp)]
    simp [List.head?_eq_getElem?]
  refine ⟨?_, ?_, ?_, .inl ⟨state, ?_, ?_⟩⟩
  · rw [tokenOf_offset, tokenOf_endOffset]
    omega
  · rw [tokenOf_endOffset, List.length_append, List.length_append]
    omega
  · rw [tokenOf_offset, tokenOf_endOffset, tokenOf_name, String.toList_ofList, ← hp]
    exact slice_append_append before word behind
  · rwa [tokenOf_name, String.toList_ofList]
  · rwa [tokenOf_endOffset, hnext]

theorem stands_stray {before behind : List Char} {c : Char} (hp : before.length = p.offset)
    (hstep : lexer.automaton.step? lexer.automaton.start c = none)
    (hinfo : lexer.automaton.classTable.symbolInfo c = .undefined) :
    lexer.Stands (before ++ ([c] ++ behind)) (.undefined (String.singleton c) p) := by
  refine ⟨?_, ?_, ?_, .inr ⟨rfl, c, rfl, hstep, hinfo⟩⟩
  · rw [undefined_endOffset]
    exact Nat.lt_succ_self _
  · rw [undefined_endOffset, List.length_append, List.length_append, List.length_singleton]
    omega
  · have hslice := slice_append_append before [c] behind
    rw [hp, List.length_singleton] at hslice
    rw [undefined_endOffset]
    exact hslice.trans (String.toList_singleton c).symm

namespace Cuts

/-- The tokens of a cut stand inside it, seen from the whole script. -/
theorem stands (h : lexer.Cuts rest p text tokens) {before : List Char}
    (hp : before.length = p.offset) :
    ∀ t ∈ tokens, p.offset ≤ t.position.offset ∧ lexer.Stands (before ++ (text ++ rest)) t := by
  induction h generalizing before with
  | nil p => simp
  | @word p word text state tokens hne hwalk hend _ ih =>
    have hplace := offset_advanceOver lexer.options p word
    have hbefore : (before ++ word).length = (advanceOver lexer.options p word).offset := by
      rw [List.length_append, hp, hplace]
    have hrest := ih hbefore
    intro t ht
    rw [List.append_assoc]
    cases List.mem_cons.mp ht with
    | inl heq =>
      subst heq
      exact ⟨Nat.le_of_eq (tokenOf_offset ..).symm, stands_tokenOf hp hne hwalk hend⟩
    | inr htail =>
      have htoken := hrest t htail
      rw [List.append_assoc] at htoken
      exact ⟨by omega, htoken.2⟩
  | @stray p c text tokens hstep hinfo _ ih =>
    have hplace := offset_advance lexer.options p c
    have hbefore : (before ++ [c]).length = (advance lexer.options p c).offset := by
      rw [List.length_append, hp, hplace, List.length_singleton]
    have hrest := ih hbefore
    intro t ht
    cases List.mem_cons.mp ht with
    | inl heq =>
      subst heq
      exact ⟨Nat.le_refl _, stands_stray hp hstep hinfo⟩
    | inr htail =>
      have htoken := hrest t htail
      rw [List.append_assoc] at htoken
      exact ⟨by omega, htoken.2⟩
  | @passed p c text tokens hstep hinfo _ ih =>
    have hplace := offset_advance lexer.options p c
    have hbefore : (before ++ [c]).length = (advance lexer.options p c).offset := by
      rw [List.length_append, hp, hplace, List.length_singleton]
    have hrest := ih hbefore
    intro t ht
    have htoken := hrest t ht
    rw [List.append_assoc] at htoken
    exact ⟨by omega, htoken.2⟩

theorem le_offset (h : lexer.Cuts rest p text tokens) :
    ∀ t ∈ tokens, p.offset ≤ t.position.offset := by
  have hbefore : (List.replicate p.offset ' ').length = p.offset := List.length_replicate
  exact fun t ht => (h.stands hbefore t ht).1

/-- No token begins before the one in front of it ends. -/
theorem pairwise (h : lexer.Cuts rest p text tokens) :
    tokens.Pairwise (fun t t' => t.endOffset ≤ t'.position.offset) := by
  induction h with
  | nil p => exact .nil
  | @word p word text state tokens hne hwalk hend hrest ih =>
    refine .cons (fun t ht => ?_) ih
    have hle := hrest.le_offset t ht
    rwa [offset_advanceOver, ← tokenOf_endOffset lexer p word state] at hle
  | @stray p c text tokens hstep hinfo hrest ih =>
    refine .cons (fun t ht => ?_) ih
    have hle := hrest.le_offset t ht
    rwa [offset_advance, ← undefined_endOffset p c] at hle
  | passed hstep hinfo hrest ih => exact ih

/-- A character of a cut that none of its tokens covers was passed over. -/
theorem isPassed (h : lexer.Cuts rest p text tokens) {i : Nat} {c : Char}
    (hc : text[i]? = some c)
    (hout : ∀ t ∈ tokens, ¬(t.position.offset ≤ p.offset + i ∧ p.offset + i < t.endOffset)) :
    lexer.IsPassed c := by
  induction h generalizing i with
  | nil p => simp at hc
  | @word p word text state tokens hne hwalk hend _ ih =>
    have hplace := offset_advanceOver lexer.options p word
    have hbehind := hout _ List.mem_cons_self
    rw [tokenOf_offset, tokenOf_endOffset] at hbehind
    have hle : word.length ≤ i := by omega
    rw [List.getElem?_append_right hle] at hc
    refine ih hc (fun t ht => ?_)
    have htoken := hout t (List.mem_cons_of_mem _ ht)
    omega
  | @stray p d text tokens hstep hinfo _ ih =>
    have hplace := offset_advance lexer.options p d
    have hbehind : ¬(p.offset ≤ p.offset + i ∧ p.offset + i < p.offset + 1) := by
      rw [← undefined_endOffset p d]
      exact hout _ List.mem_cons_self
    cases i with
    | zero => omega
    | succ i =>
      refine ih hc (fun t ht => ?_)
      have htoken := hout t (List.mem_cons_of_mem _ ht)
      omega
  | @passed p d text tokens hstep hinfo _ ih =>
    have hplace := offset_advance lexer.options p d
    cases i with
    | zero =>
      obtain rfl := Option.some.inj hc
      exact ⟨hinfo, hstep⟩
    | succ i =>
      refine ih hc (fun t ht => ?_)
      have htoken := hout t ht
      omega

end Cuts

/-- Nothing of a script is lost, and every word is read as far as it goes: the tokens stand one
behind the other with their text as name, what is not covered by them was passed over, and the
diagnostics tell the undefined ones in their order. -/
theorem run_covers (lexer : Lexer) (script : String) (hblank : ¬Text.isBlankText script) :
    let lexed := (lexer.run script).1
    (∀ t ∈ lexed.tokens, lexer.Stands script.toList t) ∧
    lexed.tokens.Pairwise (fun t t' => t.endOffset ≤ t'.position.offset) ∧
    (∀ i c, script.toList[i]? = some c →
      (∀ t ∈ lexed.tokens, ¬(t.position.offset ≤ i ∧ i < t.endOffset)) → lexer.IsPassed c) ∧
    lexed.diagnostics = (lexed.tokens.filter (·.isUndefined)).map .undefinedLexeme := by
  have hcuts := cuts_readAll lexer script.toList
  rw [run, if_neg hblank]
  refine ⟨fun t ht => ?_, hcuts.pairwise, fun i c hc hout => ?_, rfl⟩
  · have hbefore : ([] : List Char).length = Position.start.offset := rfl
    have htoken := (hcuts.stands hbefore t ht).2
    rwa [List.append_nil, List.nil_append] at htoken
  · refine hcuts.isPassed hc (fun t ht => ?_)
    have hzero : Position.start.offset + i = i := Nat.zero_add i
    rw [hzero]
    exact hout t ht

/-- A lexer whose one link leads to a state that is missing. -/
def dangling : Lexer where
  grammar := .ofNodes [] 0 (.ofNames "unclassified" "undefined" [' ']) [] false []
  automaton := .ofStates [⟨some (.ofList [("a", 7)]), none⟩] 0
    ((ClassTable.ofNames "unclassified" "undefined" [' ']).setSingleton 'a')
  options := {}

/-- Each word ends in the missing state behind one character, the blank is passed over and the
character of no class stands alone. -/
theorem dangling_covers : ¬Text.isBlankText "aa b" ∧
    (dangling.run "aa b").1.tokens =
      [.undefined "a" ⟨0, 0, 0⟩, .undefined "a" ⟨0, 1, 1⟩, .undefined "b" ⟨0, 3, 3⟩] ∧
    (∀ t ∈ (dangling.run "aa b").1.tokens, dangling.Stands "aa b".toList t) ∧
    dangling.IsPassed ' ' := by
  have hblank : ¬Text.isBlankText "aa b" := by decide
  have htokens : (dangling.run "aa b").1.tokens =
      [.undefined "a" ⟨0, 0, 0⟩, .undefined "a" ⟨0, 1, 1⟩, .undefined "b" ⟨0, 3, 3⟩] := by cbv
  have hbetween : ∀ t ∈ (dangling.run "aa b").1.tokens,
      ¬(t.position.offset ≤ 2 ∧ 2 < t.endOffset) := by
    rw [htokens]
    decide
  obtain ⟨hstands, -, hpassed, -⟩ := run_covers dangling "aa b" hblank
  exact ⟨hblank, htokens, hstands, hpassed 2 ' ' rfl hbetween⟩

end Syntagma.Lexer
