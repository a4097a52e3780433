import Syntagma.Proofs.Automaton.StrategyAgreement
import Syntagma.Proofs.Automaton.Synthesized
import Syntagma.Proofs.Grammar.Leaves
import Syntagma.Proofs.Lexing.Coverage
import Syntagma.Proofs.Symbol.Registration

/-! Listed terminals stand for themselves. Synthesis leaves a path for each of them: one of its own,
the path of a token that reads it, or the link of the single delimiters. A text with a path is one
word, and a word with the text of a listed terminal is that terminal. -/

namespace Syntagma

/-! ### Terminals outside of the classes -/

namespace Coverage

variable {declared : List SymbolClass} {terminals : List String} {text : String} {c : Char}

theorem mem_unclassified : text ∈ (ofTerminals declared terminals).unclassified ↔
    text ∈ terminals ∧ coveringClass? declared text.toList = none := by
  unfold ofTerminals
  rw [List.mem_eraseDups, List.mem_filter, Option.isNone_iff_eq_none]

theorem not_mem_symbols_of_coveringClass? (h : coveringClass? declared [c] = none) :
    ∀ k ∈ declared, c ∉ k.symbols := by
  unfold coveringClass? at h
  cases hfirst : SymbolClass.firstWith declared c with
  | none => simpa [SymbolClass.firstWith] using hfirst
  | some k => simp [hfirst] at h

end Coverage

/-! ### Listed terminals in the compiled grammar -/

namespace Classified

variable {entered : Draft} {g : Grammar} {f : NodeId → NodeId} {text : String} {id : NodeId}

theorem exists_of_mem_listedTerminals (ht : text ∈ entered.listedTerminals) :
    ∃ (i : NodeId) (m : Node), entered.nodes[i]? = some m ∧ m.isTerminal ∧ m.name = text := by
  obtain ⟨m, hm, rfl⟩ := List.mem_map.1 ht
  obtain ⟨hm, hlisted⟩ := List.mem_filter.1 hm
  obtain ⟨i, hi⟩ := List.mem_iff_getElem?.1 hm
  refine ⟨i, m, by rwa [Array.getElem?_toList] at hi, ?_, rfl⟩
  obtain ⟨k, name, execClass, kind⟩ := m
  cases kind with
  | terminal data => rfl
  | _ => cases hlisted

/-- The terminals outside of the classes are spelled in the grammar. -/
theorem spelled_of_unclassified (h : Classified entered g f) :
    ∀ text ∈ g.unclassifiedTerminals, ∀ c ∈ text.toList, g.Spelled c := by
  intro text ht c hc
  rw [h.generic] at ht
  obtain ⟨ht, -⟩ := Coverage.mem_unclassified.1 (List.mem_filter.1 ht).1
  obtain ⟨i, m, hm, hterminal, rfl⟩ := exists_of_mem_listedTerminals ht
  refine ⟨f i, _, h.entered i m hm (.inl hterminal), ?_⟩
  obtain ⟨k, name, execClass, kind⟩ := m
  cases kind with
  | terminal data => exact ⟨rfl, hc⟩
  | _ => cases hterminal

/-- A listed name is that of a published terminal, which is marked if it is outside of the
classes. -/
theorem exists_listed (h : Classified entered g f) (hid : g.terminalByName? text = some id) :
    ∃ n data, g.node? id = some n ∧ n.terminal? = some data ∧ n.name = text ∧
      (data.isControl ↔ text ∈ entered.coverage.unclassified) := by
  have hmem : g.terminalIndex.get? text = some id := hid
  rw [h.terminalIndex] at hmem
  obtain ⟨n, hn, he⟩ := List.mem_map.1 (Dictionary.mem_of_get?_ofList hmem)
  obtain ⟨rfl, rfl⟩ := Prod.mk.inj he
  obtain ⟨hn, hlisted⟩ := List.mem_filter.1 hn
  obtain ⟨k, hk⟩ := List.mem_iff_getElem?.1 hn
  have hnode : g.node? k = some n := by
    unfold Grammar.nodeList at hk
    rwa [Array.getElem?_toList] at hk
  obtain rfl := h.id_eq k n hnode
  have hterminal : n.isTerminal := by
    obtain ⟨id, name, execClass, kind⟩ := n
    cases kind with
    | terminal data => rfl
    | _ => cases hlisted
  obtain ⟨i, ⟨mid, name, execClass, kind⟩, hm, -, rfl⟩ := h.published _ n hnode (.inl hterminal)
  cases kind with
  | terminal data => exact ⟨_, _, hnode, rfl, rfl, List.contains_iff_mem⟩
  | _ => cases hterminal

/-- A listed terminal is read by the links of a published automaton if it may need a path and has
one, or if it is a single delimiter. -/
theorem mem_genericTerminals_or_singleDelimiter (h : Classified entered g f) (hne : text ≠ "")
    (hid : g.terminalByName? text = some id) : text ∈ Synthesis.genericTerminals g ∨
      ∃ c, text.toList = [c] ∧
        SymbolClass.classOf g.classTable.symbolClasses c = some singleDelimiterName := by
  obtain ⟨n, data, hnode, hdata, rfl, hcontrol⟩ := h.exists_listed hid
  by_cases hmarked : n.name ∈ entered.coverage.unclassified
  · by_cases hpath : entered.coverage.intersected.contains n.name || 1 < n.name.length
    · refine .inl (List.mem_append_left _ ?_)
      rw [h.generic]
      exact List.mem_filter.2 ⟨hmarked, hpath⟩
    · -- what is alone in its text and overlaps no other text is a single delimiter
      simp only [Bool.or_eq_true, List.contains_iff_mem, decide_eq_true_eq, not_or] at hpath
      have hlength : n.name.toList.length = 1 := by
        have hpos : n.name.length ≠ 0 := fun h0 => hne (String.length_eq_zero_iff.1 h0)
        rw [String.length_toList]
        omega
      obtain ⟨c, hc⟩ := List.length_eq_one_iff.1 hlength
      obtain ⟨base, hbase, htable⟩ := h.table
      have hcovering := (Coverage.mem_unclassified.1 hmarked).2
      rw [hc] at hcovering
      refine .inr ⟨c, hc, ?_⟩
      rw [htable]
      exact Coverage.classOf_register hbase
        (Coverage.mem_singleDelimiters.2 ⟨_, hmarked, hpath.1, hc⟩)
        (Coverage.not_mem_symbols_of_coveringClass? hcovering)
  · refine .inl (List.mem_append_right _ (List.mem_map_of_mem ?_))
    refine List.mem_filter.2 ⟨?_, by simpa [hdata] using fun hc => hmarked (hcontrol.1 hc)⟩
    have hvalues : id ∈ g.terminalIndex.values :=
      List.mem_map.2 ⟨_, Dictionary.mem_entries_iff.2 hid, rfl⟩
    exact List.mem_filterMap.2 ⟨id, hvalues, hnode⟩

end Classified

/-! ### Scripts of one listed terminal -/

/-- The lexer of a description. -/
def GrammarDescription.lexer (description : GrammarDescription) : Except Fault Lexer := do
  let g ← Grammar.compile description {}
  let a ← FiniteAutomaton.ofGrammar g
  return ⟨g, a, {}⟩

theorem GrammarDescription.exists_of_lexer (description : GrammarDescription) (holds : Lexer → Bool)
    (h : description.lexer.map holds = .ok true) : ∃ g a, Grammar.compile description {} = .ok g ∧
      FiniteAutomaton.ofGrammar g = .ok a ∧ holds ⟨g, a, {}⟩ := by
  cases hl : description.lexer with
  | error fault =>
    rw [hl] at h
    cases h
  | ok lexer =>
    obtain ⟨g, hg, hrest⟩ := Fault.bind_eq_ok_iff.1 hl
    obtain ⟨a, ha, hlexer⟩ := Fault.bind_eq_ok_iff.1 hrest
    cases hlexer
    rw [hl] at h
    exact ⟨g, a, hg, ha, Except.ok.inj h⟩

/-- The automaton of a grammar with clear classes reads each listed terminal to its end. -/
theorem exists_walk_of_listed {description : GrammarDescription} {options : GrammarOptions}
    {g : Grammar} {a : FiniteAutomaton} {text : String} {id : NodeId}
    (hg : Grammar.compile description options = .ok g) (ha : FiniteAutomaton.ofGrammar g = .ok a)
    (hclear : g.classTable.Clear g.Spelled) (hid : g.terminalByName? text = some id)
    (hne : text ≠ "") (hplain : ∀ c ∈ text.toList, c ∉ g.classTable.whiteDelimiters) :
    ∃ state, a.walk? a.start text.toList = some state := by
  obtain ⟨_, _, _, -, hclassified⟩ := classified_of_compile hg
  obtain ⟨s₁, s₂, s, -, -, -, hs₂, -, hpathed, rfl, hgrows, hpublished⟩ :=
    Synthesis.exists_published hclear hclassified.spelled_of_unclassified ha
  have hreads : ∃ last, (Synthesis.addSingleDelimiter g s₂).Reads Arena.root text.toList last := by
    rcases hclassified.mem_genericTerminals_or_singleDelimiter hne hid with hmem | ⟨c, hc, hclass⟩
    · obtain ⟨last, hlast⟩ := hpathed text hmem (Synthesis.plain_of_forall_not_mem hplain)
      exact ⟨last, hlast.grows hs₂ hpublished.sound hgrows⟩
    · obtain ⟨hs, -, target, hlink⟩ := Synthesis.addSingleDelimiter_spec hs₂
      have htakes := hs.narrowed.takes_of_classOf hclass
      rw [hc]
      exact ⟨target, Synthesis.reads_cons htakes hlink (Synthesis.reads_nil _ _)⟩
  obtain ⟨last, hlast⟩ := hreads
  obtain ⟨state, hstate, -⟩ := hpublished.reads hlast
  exact ⟨state, hstate⟩

namespace Lexer

theorem tokenOf_id_of_listed (lexer : Lexer) {text : String} {id : NodeId}
    (hid : lexer.grammar.terminalByName? text = some id) (p : Position) (state : StateId) :
    (lexer.tokenOf p text.toList state).id = some id := by
  simp only [tokenOf, resolve, String.ofList_toList, hid]

/-- Words of two letters, and terminals that are a word, overlap each other, or neither. -/
def words : GrammarDescription :=
  descriptionOf (.mk "Line" .medium
    [[.definition (.mk "Word" (.token "word" none)
        [[.definition (.mk "Letter" (.symbolClass "letter" "ab") []), .reference "Letter"]])],
      [literal "if", literal "i", literal "ab", literal ";"]])

/-- Whether a text has neither white space nor white delimiters of a table. -/
def isSolid (table : ClassTable) (text : String) : Bool :=
  text.toList.all (fun c => !Text.isBlank c && !table.whiteDelimiters.contains c)

theorem isSolid_iff {table : ClassTable} {text : String} : isSolid table text ↔
    ∀ c ∈ text.toList, ¬Text.isBlank c ∧ c ∉ table.whiteDelimiters := by
  simp [isSolid]

/-- A terminal beside two classes that share a character. -/
def sharing : GrammarDescription :=
  descriptionOf (.mk "Line" .medium
    [[.definition (.mk "Word" (.token "word" none)
        [[.definition (.mk "First" (.symbolClass "first" "ab") []),
          .definition (.mk "Second" (.symbolClass "second" "b") [])]])],
      [literal "xb"]])

end Lexer

end Syntagma
