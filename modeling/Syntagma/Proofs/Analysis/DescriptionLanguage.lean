import Syntagma.Proofs.Analysis.SpelledLanguage
import Syntagma.Proofs.Grammar.Written

/-! The analyzer decides the language of a description. Entering, unrolling, factorizing and
publishing keep what the axiom derives, and the search decides what the tries derive. -/

namespace Syntagma

namespace Grammar

variable (g : Grammar)

/-- Whether the token carries the number of a terminal or of a defined token. -/
def recognizes (t : Token) : Bool := t.id.any g.isTokenKey

/-- The symbol that a recognized token is an instance of. -/
def symbolOf (t : Token) : Symbol := ((t.id.bind g.node?).bind (·.symbol?)).getD default

end Grammar

namespace Publishes

variable {d d' : Draft} {g : Grammar} {f : NodeId → NodeId}

theorem exists_of_recognizes (h : Publishes d' g f) (hkeeps : d.Keeps d')
    (hkey : ∀ i, d'.isTokenKey i → i < d.nodes.size) {t : Token} (ht : g.recognizes t) :
    ∃ i < d.nodes.size, t.id = some (f i) ∧ g.symbolOf t = d.symbolOf i := by
  obtain ⟨j, hj, hk⟩ := (Option.any_eq_true _ _).1 ht
  cases hn : g.node? j with
  | none =>
    rw [Grammar.isTokenKey, hn] at hk
    exact absurd hk Bool.false_ne_true
  | some n =>
    obtain ⟨i, hi, rfl⟩ := h.onto j n hn
    rw [h.isTokenKey hi] at hk
    have hid := hkey i hk
    have hnode := Array.getElem?_eq_getElem hi
    refine ⟨i, hid, hj, ?_⟩
    rw [Grammar.symbolOf, hj, Option.bind_some, h.node i _ hnode, Option.bind_some,
      Node.symbol?_mapIds, Draft.symbolOf, ← hkeeps.symbol? hid,
      Draft.symbol?_eq, hnode, Option.bind_some]

theorem exists_ids (h : Publishes d' g f) (hkeeps : d.Keeps d')
    (hkey : ∀ i, d'.isTokenKey i → i < d.nodes.size) {tokens : List Token}
    (ht : ∀ t ∈ tokens, g.recognizes t) : ∃ ids : List NodeId, (∀ x ∈ ids, x < d.nodes.size) ∧
      tokens.map (·.id) = (ids.map f).map some ∧ tokens.map g.symbolOf = ids.map d.symbolOf := by
  induction tokens with
  | nil => exact ⟨[], fun _ hx => absurd hx List.not_mem_nil, rfl, rfl⟩
  | cons t tokens ih =>
    obtain ⟨i, hi, hid, hs⟩ := h.exists_of_recognizes hkeeps hkey (ht t List.mem_cons_self)
    obtain ⟨ids, hlt, hids, hsymbols⟩ := ih (fun t hm => ht t (List.mem_cons_of_mem _ hm))
    refine ⟨i :: ids, fun x hx => ?_, ?_, ?_⟩
    · rcases List.mem_cons.1 hx with rfl | hx
      · exact hi
      · exact hlt x hx
    · rw [List.map_cons, List.map_cons, List.map_cons, hid, hids]
    · rw [List.map_cons, List.map_cons, hs, hsymbols]

end Publishes

namespace Compiled

variable {description : GrammarDescription} {options : GrammarOptions} {g : Grammar}
  {start : NodeId} {entered classed factorized : Draft}

theorem added (h : Compiled description options g start entered classed factorized) :
    Draft.Added .empty classed description.definitions := by
  have ha := (Draft.addDefinition_added Draft.proper_empty h.entry).2.1.trans (.of_shape? h.shape)
  rwa [List.append_nil] at ha

theorem symbolOf_start (h : Compiled description options g start entered classed factorized) :
    classed.symbolOf start = description.start := by
  have hs := (Draft.addDefinition_added Draft.proper_empty h.entry).2.2
  rw [Draft.symbol?, ← h.shape, ← Draft.symbol?] at hs
  exact Draft.symbolOf_eq hs

/-- From the description to the tries: recognized tokens are derived by entering the published
axiom exactly if the description, as it is read, enters them. -/
theorem exists_derives_iff (h : Compiled description options g start entered classed factorized)
    (ho : options.removeLeftRecursion) {tokens : List Token}
    (ht : ∀ t ∈ tokens, g.recognizes t) : ∃ ids, tokens.map (·.id) = ids.map some ∧
      (g.Derives (g.entered g.axiomId) ids ↔
        description.readings.Enters description.start (tokens.map g.symbolOf)) := by
  obtain ⟨d₁, hr⟩ := Draft.exists_realizes h.proper.sound h.proper.unfactorized ho h.factorize
  obtain ⟨ids, hlt, hids, hsymbols⟩ := h.publish.exists_ids (hr.keeps.trans hr.keeps') hr.key ht
  have hstart := Draft.lt_size_of_isMedium h.start_isMedium
  refine ⟨_, hids, ?_⟩
  rw [h.axiomId_eq, h.publish.derives_entered_iff hr hstart hlt, hsymbols, ← h.symbolOf_start]
  exact ((Draft.renames_readings h.proper h.added).enters_iff hstart hlt).symm

end Compiled

/-- With left recursion removed, the analysis of recognized tokens decides what the axiom of the
description derives, with the cases of each definition as they are read. A plain description is
read as it is written. -/
theorem analysis_decides_description_language {description : GrammarDescription}
    {options : GrammarOptions} {g : Grammar} (h : Grammar.compile description options = .ok g)
    (ho : options.removeLeftRecursion) :
    (∃ p, PushdownAutomaton.ofGrammar g = .ok p ∧
      ∀ (settings : AnalysisOptions) (tokens : List Token), tokens ≠ [] →
        (∀ t ∈ tokens, g.recognizes t) →
        (∀ steps, (analyze g p settings tokens).1 = .ok (.accepted steps) →
          description.readings.Enters description.start (tokens.map g.symbolOf)) ∧
        (∀ d, (analyze g p settings tokens).1 = .ok (.rejected d) →
          ¬description.readings.Enters description.start (tokens.map g.symbolOf)) ∧
        ∀ fault, (analyze g p settings tokens).1 = .error fault →
          fault = .of (.depthExceeded settings.maxDepth)) ∧
      (description.Plain → ∀ word, description.readings.Enters description.start word ↔
        description.productions.Opens description.start word) := by
  obtain ⟨start, entered, classed, factorized, hc⟩ := compiled_of_compile h
  obtain ⟨p, hp⟩ := exists_ofGrammar_of_compile h
  refine ⟨⟨p, hp, fun settings tokens hne ht => ?_⟩, fun hplain _ => hplain.readings_enters_iff⟩
  obtain ⟨ids, hids, hiff⟩ := hc.exists_derives_iff ho ht
  rw [← hiff]
  exact hc.linked.analyze_decides hp settings hne hids

theorem plain_sums : sums.Plain where
  unambiguous definition hm := by
    obtain rfl : definition = sums.axiomDefinition := List.mem_singleton.1 hm
    exact .inl (by decide)
  start := .inl (by decide)

/-- A sum is derived from the description as it is written, and one that ends with its sign is
not. -/
theorem description_language_of_sums :
    sums.productions.Opens sums.start [.terminal "a", .terminal "+", .terminal "a"] ∧
      ¬sums.productions.Opens sums.start [.terminal "a", .terminal "+"] := by
  have hsymbols : (Grammar.compile sums {}).map (fun g => (sumTokens.all g.recognizes,
    sumTokens.map g.symbolOf)) = .ok (true, [.terminal "a", .terminal "+", .terminal "a"]) := by cbv
  obtain ⟨g, hg, p, hp, hwhole, hpart⟩ := verdict_sums
  rw [hg] at hsymbols
  obtain ⟨hall, hsymbols⟩ := Prod.mk.inj (Except.ok.inj hsymbols)
  obtain ⟨⟨p', hp', hdecides⟩, hwritten⟩ := analysis_decides_description_language hg rfl
  obtain rfl := Except.ok.inj (hp.symm.trans hp')
  have hrecognized : ∀ t ∈ sumTokens, g.recognizes t := List.all_eq_true.1 hall
  have haccepted := (hdecides {} sumTokens (by decide) hrecognized).1 5 hwhole
  have hrejected := (hdecides {} (sumTokens.take 2) (by decide)
    (fun t ht => hrecognized t (List.mem_of_mem_take ht))).2.1 unfinishedSum hpart
  rw [hwritten plain_sums] at haccepted hrejected
  rw [List.map_take, hsymbols] at hrejected
  rw [hsymbols] at haccepted
  exact ⟨haccepted, hrejected⟩

/-! ### Cases that are not read as written -/

/-- A script of recognized tokens on which the verdict is not what the cases, as they are written,
say. -/
def GrammarDescription.Misread (description : GrammarDescription) (tokens : List Token) : Prop :=
  ∃ g p outcome, Grammar.compile description {} = .ok g ∧ PushdownAutomaton.ofGrammar g = .ok p ∧
    (∀ t ∈ tokens, g.recognizes t) ∧ (analyze g p {} tokens).1 = .ok outcome ∧
    ¬(outcome.isAccepted ↔
      description.productions.Opens description.start (tokens.map g.symbolOf))

theorem misread_of_verdict {description : GrammarDescription} {tokens : List Token}
    {outcome : Outcome} {symbols : List Symbol}
    (hv : description.verdict {} {} tokens = .ok outcome)
    (hs : (Grammar.compile description {}).map (fun g => (tokens.all g.recognizes,
      tokens.map g.symbolOf)) = .ok (true, symbols))
    (hno : ¬(outcome.isAccepted ↔ description.productions.Opens description.start symbols)) :
    description.Misread tokens := by
  obtain ⟨g, hg, p, hp, hv⟩ := verdict_eq_ok_iff.1 hv
  rw [hg] at hs
  obtain ⟨hall, hsymbols⟩ := Prod.mk.inj (Except.ok.inj hs)
  exact ⟨g, p, outcome, hg, hp, List.all_eq_true.1 hall, hv, hsymbols ▸ hno⟩

/-- A definition that has one case twice. -/
def repeated : GrammarDescription :=
  descriptionOf (.mk "S" .medium
    [[.definition (.mk "X" .medium [[literal "a"], [literal "a"]]), literal "b"]])

/-- A definition that has only an empty case. -/
def hollow : GrammarDescription :=
  descriptionOf (.mk "S" .medium [[.definition (.mk "X" .medium [[]]), literal "b"]])

/-- An axiom that is a token and left-recursive. -/
def reentered : GrammarDescription :=
  descriptionOf (.mk "T" (.token "k" none) [[.reference "T", literal "a"], [literal "b"]])

/-- Every script of the description has two tokens. -/
theorem not_opens_repeated : ¬repeated.productions.Opens repeated.start [.terminal "b"] := by
  have hrules : repeated.rules = [(.named "S", [.named "X", .terminal "b"]),
    (.named "X", [.terminal "a"]), (.named "X", [.terminal "a"])] := rfl
  simp only [Productions.Opens, GrammarDescription.rule_iff_mem_rules, hrules]
  rintro ⟨case, hr, hd⟩
  obtain rfl : case = [.named "X"] ++ [.terminal "b"] := by
    simpa [GrammarDescription.start, repeated, descriptionOf, Definition.name] using hr
  obtain ⟨u, v, he, hu, hv⟩ := hd.split
  obtain ⟨inner, hr, hinner⟩ := hu.opens (by decide)
  rw [GrammarDescription.rule_iff_mem_rules, hrules] at hr
  obtain rfl : inner = [.terminal "a"] := by simpa using hr
  rw [hinner.eq_of_leaf (by decide), hv.eq_of_leaf (by decide)] at he
  exact absurd he (by decide)

theorem opens_hollow : hollow.productions.Opens hollow.start [.terminal "b"] :=
  ⟨[.named "X", .terminal "b"], by decide,
    .rule (by decide) (by decide) .nil (.leaf (by decide) .nil)⟩

theorem not_opens_reentered :
    ¬reentered.productions.Opens reentered.start [.terminal "b", .terminal "a"] := by
  have hrules : reentered.rules = [(.named "T", [.named "T", .terminal "a"]),
    (.named "T", [.terminal "b"])] := rfl
  simp only [Productions.Opens, GrammarDescription.rule_iff_mem_rules, hrules]
  rintro ⟨case, hr, hd⟩
  have hcase : case = [.named "T", .terminal "a"] ∨ case = [.terminal "b"] := by
    simpa [GrammarDescription.start, reentered, descriptionOf, Definition.name] using hr
  rcases hcase with rfl | rfl
  · exact absurd (hd.eq_of_leaf (by decide)) (by decide)
  · exact absurd (hd.eq_of_leaf (by decide)) (by decide)

/-- In three ways a description is not read as it is written. A repeated case is read without its
last symbol as well, a definition with empty cases only derives nothing, and a left-recursive
axiom is entered again even if it is a token. -/
theorem misread_descriptions : repeated.Misread [tokenAt 0 "b" 1] ∧
    hollow.Misread [tokenAt 0 "b" 0] ∧ reentered.Misread [tokenAt 0 "b" 5, tokenAt 1 "a" 4] := by
  have hrepeated : repeated.verdict {} {} [tokenAt 0 "b" 1] = .ok (.accepted 3) := by cbv
  have hhollow : hollow.verdict {} {} [tokenAt 0 "b" 0] = .ok (.rejected ⟨.syntactic,
    .unexpectedToken, "Unexpected token b at (1;1). Expected: end of script", [tokenAt 0 "b" 0], 0,
    []⟩) := by cbv
  have hreentered : reentered.verdict {} {} [tokenAt 0 "b" 5, tokenAt 1 "a" 4] =
    .ok (.accepted 4) := by cbv
  refine ⟨misread_of_verdict hrepeated (by cbv) (fun h => ?_),
    misread_of_verdict hhollow (by cbv) (fun h => ?_),
    misread_of_verdict hreentered (by cbv) (fun h => ?_)⟩
  · exact not_opens_repeated (h.1 rfl)
  · exact Bool.false_ne_true (h.2 opens_hollow)
  · exact not_opens_reentered (h.1 rfl)

end Syntagma
