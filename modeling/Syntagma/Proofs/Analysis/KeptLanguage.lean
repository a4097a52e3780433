import Syntagma.Proofs.Analysis.DescriptionLanguage
import Syntagma.Proofs.Grammar.TokenNumbers

/-! Left recursion kept beside left recursion removed. The tokens have the same numbers in both
grammars. Each analysis decides a language of the description, and these are the same if merging
changes nothing in the left-recursive definitions. Where it does, the verdicts can differ, as is
shown at the end. -/

namespace Syntagma

namespace Publishes

variable {d d' : Draft} {g : Grammar} {f : NodeId → NodeId}

theorem trie?_of_trie? (h : Publishes d g f) {i : NodeId} {trie : Trie}
    (ht : d.trie? i = some trie) : g.trie? (f i) = some (trie.mapIds f) := by
  rw [h.trie? (Draft.lt_size_of_trie? ht), ht, Option.map_some]

/-- Loops stay loops under their new numbers. -/
theorem looped (h : Publishes d g f) (hl : d.Looped) : g.Looped := by
  intro id trie loop ht hr
  obtain ⟨i, -, -, t, hdt, rfl⟩ := h.exists_of_trie? ht
  obtain ⟨loop, hloop, rfl⟩ := Option.map_eq_some_iff.1 hr
  obtain ⟨tails, hrep⟩ := hl i t hdt
  rw [hloop] at hrep
  obtain ⟨place, inner, hnone, hall⟩ := hrep
  obtain ⟨hlt, hplace, hkey, -⟩ := hall d (.refl d)
  obtain ⟨n, hn, -⟩ := Option.bind_eq_some_iff.1 hplace
  refine ⟨f place, h.trie?_of_trie? hlt, ?_, inner.mapIds f, h.trie?_of_trie? hplace, ?_⟩
  · rw [h.isTokenKey (Draft.lt_size_of_shape? hn), hkey]
  · rw [Trie.mapIds, hnone]
    rfl

theorem repeats_iff (h : Publishes d g f) (hd : d.Sound) (hl : d.Looped) {i : NodeId}
    (hi : i < d.nodes.size) {read : List NodeId} :
    g.Repeats (f i) read ↔ ∃ tail, read = tail.map f ∧ d.Repeats i tail := by
  constructor
  · rintro ⟨trie', loop', place', ht', hr', hloop', hs⟩
    rw [h.trie? hi] at ht'
    obtain ⟨trie, ht, rfl⟩ := Option.map_eq_some_iff.1 ht'
    obtain ⟨loop, hr, rfl⟩ := Option.map_eq_some_iff.1 hr'
    obtain ⟨tails, hrep⟩ := hl i trie ht
    rw [hr] at hrep
    obtain ⟨place, inner, -, hall⟩ := hrep
    obtain ⟨hloop, hplace, -⟩ := hall d (.refl d)
    have hcases := congrArg Trie.cases
      (Option.some.inj ((h.trie?_of_trie? hloop).symm.trans hloop'))
    obtain rfl : f place = place' := (Prod.mk.inj (List.cons.inj hcases).1).1
    obtain ⟨n, hn, -⟩ := Option.bind_eq_some_iff.1 hplace
    obtain ⟨tail, rfl, hspells⟩ := (h.spells_iff hd (Draft.lt_size_of_shape? hn)).1 hs
    exact ⟨tail, rfl, trie, loop, place, ht, hr, hloop, hspells⟩
  · rintro ⟨tail, rfl, trie, loop, place, ht, hr, hloop, hs⟩
    obtain ⟨inner, hplace, hs⟩ := hs
    obtain ⟨n, hn, -⟩ := Option.bind_eq_some_iff.1 hplace
    refine ⟨trie.mapIds f, f loop, f place, h.trie?_of_trie? ht, ?_, h.trie?_of_trie? hloop,
      (h.spells_iff hd (Draft.lt_size_of_shape? hn)).2 ⟨tail, rfl, inner, hplace, hs⟩⟩
    rw [Trie.mapIds, hr]
    rfl

section Keeping

variable (h : Publishes d' g f) (hk : Draft.Keeping d d')

include h hk

theorem spells_iff_reads {i : NodeId} (hi : i < d.nodes.size) {read : List NodeId} :
    g.Spells (f i) read ↔ ∃ case, read = case.map f ∧ Reads (baseOf i (d.casesOf i)) case := by
  rw [h.spells_iff hk.sound' (Nat.lt_of_lt_of_le hi hk.keeps.size_le)]
  exact exists_congr (fun case => and_congr_right (fun _ => hk.spells i case hi))

theorem repeats_iff_reads {i : NodeId} (hi : i < d.nodes.size) {read : List NodeId} :
    g.Repeats (f i) read ↔ ∃ tail, read = tail.map f ∧ Reads (behind i (d.casesOf i)) tail := by
  rw [h.repeats_iff hk.sound' hk.looped (Nat.lt_of_lt_of_le hi hk.keeps.size_le)]
  exact exists_congr (fun tail => and_congr_right (fun _ => hk.repeats i tail hi))

/-- The tries and loops of the published grammar stand for the nodes of the draft with its left
recursion kept, renumbered. -/
theorem renames_keptReading (hd : d.Sound) :
    Productions.Renames d.keptReading g.looping (· < d.nodes.size) f := by
  have hlt {i : NodeId} (hi : i < d.nodes.size) : i < d'.nodes.size :=
    Nat.lt_of_lt_of_le hi hk.keeps.size_le
  refine ⟨fun i j hi hj => h.inj i j (hlt hi) (hlt hj), fun i case _ hr x hx => ?_,
    fun i hi => ?_, fun i read hi => ?_⟩
  · obtain ⟨other, ho, hp⟩ := exists_prefix_of_keptAs hr
    exact hd.cases_lt i other ho x (hp.subset hx)
  · simp only [Grammar.looping, Draft.keptReading, h.isTokenKey (hlt hi), hk.keeps.isTokenKey hi]
  · simp only [Grammar.looping, Draft.keptReading, h.spells_iff_reads hk hi,
      h.repeats_iff_reads hk hi]
    constructor
    · rintro (⟨case, rfl, hr⟩ | ⟨_, rfl, tail, rfl, hr⟩)
      · exact ⟨case, rfl, .inl hr⟩
      · exact ⟨i :: tail, rfl, .inr ⟨tail, rfl, hr⟩⟩
    · rintro ⟨_, rfl, hr | ⟨tail, rfl, hr⟩⟩
      · exact .inl ⟨_, rfl, hr⟩
      · exact .inr ⟨_, rfl, tail, rfl, hr⟩

/-- What entering a node of the published grammar derives is what the draft enters there with its
left recursion kept. -/
theorem derives_entered_iff_kept (hd : d.Sound) {id : NodeId} (hid : id < d.nodes.size)
    {w : List NodeId} (hw : ∀ x ∈ w, x < d.nodes.size) :
    g.Derives (g.entered (f id)) (w.map f) ↔ d.keptReading.Enters id w := by
  have hrenames := h.renames_keptReading hk hd
  have hself (rest : List NodeId) : ¬g.Spells (f id) (f id :: rest) := by
    rw [h.spells_iff_reads hk hid]
    rintro ⟨case, he, hr⟩
    obtain ⟨other, ho, hp⟩ := exists_prefix_of_reads hr
    have hdom : ∀ x ∈ case, x < d.nodes.size :=
      fun x hx => hd.cases_lt id other (mem_baseOf.1 ho).1 x (hp.subset hx)
    refine head_ne_of_reads_baseOf hr ((head?_map_eq_iff hrenames.inj hid hdom).1 ?_)
    rw [← he, List.head?_cons]
  calc g.Derives (g.entered (f id)) (w.map f)
      ↔ g.looping.Enters (f id) (w.map f) :=
        (h.looped hk.looped).derives_entered_iff_enters hself
    _ ↔ d.keptReading.Enters id w := hrenames.enters_iff hid hw

end Keeping

end Publishes

/-- From the description to the tries with their loops. -/
theorem Compiled.exists_derives_iff_kept {description : GrammarDescription}
    {options : GrammarOptions} {g : Grammar} {start : NodeId} {entered classed factorized : Draft}
    (h : Compiled description options g start entered classed factorized)
    (ho : options.removeLeftRecursion = false) {tokens : List Token}
    (ht : ∀ t ∈ tokens, g.recognizes t) : ∃ ids, tokens.map (·.id) = ids.map some ∧
      (g.Derives (g.entered g.axiomId) ids ↔
        description.keptReadings.Enters description.start (tokens.map g.symbolOf)) := by
  have hsound := h.proper.sound
  have hk := Draft.keeping_of_factorizeAll hsound h.proper.unfactorized ho h.factorize
  obtain ⟨ids, hlt, hids, hsymbols⟩ := h.publish.exists_ids hk.keeps hk.key ht
  have hstart := Draft.lt_size_of_isMedium h.start_isMedium
  refine ⟨_, hids, ?_⟩
  rw [h.axiomId_eq, h.publish.derives_entered_iff_kept hk hsound hstart hlt, hsymbols,
    ← h.symbolOf_start]
  exact ((Draft.renames_keptReadings h.proper h.added).enters_iff hstart hlt).symm

/-! ### Verdicts -/

namespace Grammar

/-- Whether the token carries the number of a listed terminal or of a defined token. -/
def lists (g : Grammar) (t : Token) : Bool := (t.id.bind g.tokenSymbol?).isSome

variable {g g' : Grammar} {t : Token}

theorem exists_of_lists (h : g.lists t) : ∃ id n s, t.id = some id ∧ g.node? id = some n ∧
    n.tokenSymbol? = some s := by
  obtain ⟨s, hs⟩ := Option.isSome_iff_exists.1 h
  obtain ⟨id, hid, hs⟩ := Option.bind_eq_some_iff.1 hs
  obtain ⟨n, hn, hs⟩ := Option.bind_eq_some_iff.1 hs
  exact ⟨id, n, s, hid, hn, hs⟩

theorem recognizes_of_lists (h : g.lists t) : g.recognizes t := by
  obtain ⟨id, n, s, hid, hn, hs⟩ := exists_of_lists h
  rw [recognizes, hid, Option.any_some, isTokenKey, hn, Option.any_some]
  exact Node.isTokenKey_of_tokenSymbol? hs

theorem some_symbolOf_of_lists (h : g.lists t) : some (g.symbolOf t) = t.id.bind g.tokenSymbol? := by
  obtain ⟨id, n, s, hid, hn, hs⟩ := exists_of_lists h
  rw [symbolOf, hid, Option.bind_some, hn, Option.bind_some, Node.symbol?_of_tokenSymbol? hs,
    Option.getD_some, Option.bind_some, tokenSymbol?, hn, Option.bind_some, hs]

section SameNumbers

variable (hsame : g'.tokenSymbol? = g.tokenSymbol?)

include hsame

theorem lists_of_same (h : g.lists t) : g'.lists t := by
  rwa [lists, hsame]

theorem symbolOf_of_same (h : g.lists t) : g'.symbolOf t = g.symbolOf t := by
  have hs := some_symbolOf_of_lists (lists_of_same hsame h)
  rw [hsame, ← some_symbolOf_of_lists h] at hs
  exact Option.some.inj hs

end SameNumbers

/-- An analysis that stays within the depth limit ends with a verdict on the script. -/
theorem Linked.exists_outcome (hg : g.Linked) {p : PushdownAutomaton}
    (hp : PushdownAutomaton.ofGrammar g = .ok p) (settings : AnalysisOptions) {tokens : List Token}
    {ids : List NodeId} (hne : tokens ≠ []) (h : tokens.map (·.id) = ids.map some)
    (hdeep : (analyze g p settings tokens).1 ≠ .error (.of (.depthExceeded settings.maxDepth))) :
    ∃ outcome, (analyze g p settings tokens).1 = .ok outcome ∧
      (outcome.isAccepted ↔ g.Derives (g.entered g.axiomId) ids) := by
  obtain ⟨haccepted, hrejected, hfault⟩ := hg.analyze_decides hp settings hne h
  cases he : (analyze g p settings tokens).1 with
  | error fault =>
    have hlimit := hfault fault he
    exact absurd (hlimit ▸ he) hdeep
  | ok outcome =>
    refine ⟨outcome, rfl, ?_⟩
    cases outcome with
    | accepted steps => exact iff_of_true rfl (haccepted steps he)
    | rejected d => exact iff_of_false Bool.false_ne_true (hrejected d he)

end Grammar

/-- With left recursion removed and with left recursion kept, the same numbers stand for the same
tokens. Each analysis that stays within its depth limit decides what the axiom derives as the
description is read there. If merging changes nothing in the left-recursive definitions, the
verdicts are the same. -/
theorem kept_recursion_agrees {description : GrammarDescription} {options : GrammarOptions}
    {removing keeping : Grammar}
    (hr : Grammar.compile description { options with removeLeftRecursion := true } = .ok removing)
    (hk : Grammar.compile description { options with removeLeftRecursion := false } =
      .ok keeping) :
    keeping.tokenSymbol? = removing.tokenSymbol? ∧
    ∃ p q, PushdownAutomaton.ofGrammar removing = .ok p ∧
      PushdownAutomaton.ofGrammar keeping = .ok q ∧
      ∀ (settings settings' : AnalysisOptions) (tokens : List Token), tokens ≠ [] →
        (∀ t ∈ tokens, removing.lists t) →
        (analyze removing p settings tokens).1 ≠
          .error (.of (.depthExceeded settings.maxDepth)) →
        (analyze keeping q settings' tokens).1 ≠
          .error (.of (.depthExceeded settings'.maxDepth)) →
        ∃ removed kept, (analyze removing p settings tokens).1 = .ok removed ∧
          (analyze keeping q settings' tokens).1 = .ok kept ∧
          (removed.isAccepted ↔
            description.readings.Enters description.start (tokens.map removing.symbolOf)) ∧
          (kept.isAccepted ↔
            description.keptReadings.Enters description.start (tokens.map removing.symbolOf)) ∧
          (description.LoopsPlain → (removed.isAccepted ↔ kept.isAccepted)) := by
  have hsame := tokenSymbol?_eq_of_compile hr hk rfl
  obtain ⟨_, _, _, _, hcr⟩ := compiled_of_compile hr
  obtain ⟨_, _, _, _, hck⟩ := compiled_of_compile hk
  obtain ⟨p, hp⟩ := exists_ofGrammar_of_compile hr
  obtain ⟨q, hq⟩ := exists_ofGrammar_of_compile hk
  refine ⟨hsame, p, q, hp, hq, fun settings settings' tokens hne hlists hdeep hdeep' => ?_⟩
  obtain ⟨ids, hids, hiff⟩ := hcr.exists_derives_iff rfl
    (fun t ht => Grammar.recognizes_of_lists (hlists t ht))
  obtain ⟨ids', hids', hiff'⟩ := hck.exists_derives_iff_kept rfl
    (fun t ht => Grammar.recognizes_of_lists (Grammar.lists_of_same hsame (hlists t ht)))
  obtain ⟨removed, hremoved, hverdict⟩ := hcr.linked.exists_outcome hp settings hne hids hdeep
  obtain ⟨kept, hkept, hverdict'⟩ := hck.linked.exists_outcome hq settings' hne hids' hdeep'
  have hsymbols : tokens.map keeping.symbolOf = tokens.map removing.symbolOf :=
    List.map_congr_left (fun t ht => Grammar.symbolOf_of_same hsame (hlists t ht))
  rw [hiff] at hverdict
  rw [hiff', hsymbols] at hverdict'
  refine ⟨removed, kept, hremoved, hkept, hverdict, hverdict', fun hplain => ?_⟩
  rw [hverdict, hverdict', hplain.enters_iff]

/-- Left recursion is kept. -/
def keepingLoops : GrammarOptions := { removeLeftRecursion := false }

theorem loopsPlain_sums : sums.LoopsPlain :=
  GrammarDescription.loopsPlain_of_nodup (by decide)

/-- A sum is accepted either way, so it is derived either way. -/
theorem kept_sums_agree : ∃ removing keeping, Grammar.compile sums {} = .ok removing ∧
    Grammar.compile sums keepingLoops = .ok keeping ∧
    keeping.tokenSymbol? = removing.tokenSymbol? ∧ ∃ p q,
      PushdownAutomaton.ofGrammar removing = .ok p ∧ PushdownAutomaton.ofGrammar keeping = .ok q ∧
      ∃ removed kept, (analyze removing p {} sumTokens).1 = .ok removed ∧
        (analyze keeping q {} sumTokens).1 = .ok kept ∧
        removed.isAccepted ∧ kept.isAccepted ∧
        sums.readings.Enters sums.start (sumTokens.map removing.symbolOf) ∧
        sums.keptReadings.Enters sums.start (sumTokens.map removing.symbolOf) := by
  have hkept : sums.verdict keepingLoops {} sumTokens = .ok (.accepted 5) := by cbv
  have hlists : (Grammar.compile sums {}).map (fun g => sumTokens.all g.lists) = .ok true := by cbv
  obtain ⟨removing, hr, p, hp, hremoved, -⟩ := verdict_sums
  obtain ⟨keeping, hk, q, hq, hkept⟩ := verdict_eq_ok_iff.1 hkept
  rw [hr] at hlists
  obtain ⟨hsame, p', q', hp', hq', hagree⟩ :=
    @kept_recursion_agrees sums {} removing keeping hr hk
  obtain rfl := Except.ok.inj (hp.symm.trans hp')
  obtain rfl := Except.ok.inj (hq.symm.trans hq')
  obtain ⟨removed, kept, hro, hko, hremovedIff, hkeptIff, hverdicts⟩ := hagree {} {} sumTokens
    (by decide) (List.all_eq_true.1 (Except.ok.inj hlists))
    (by simp [hremoved]) (by simp [hkept])
  obtain rfl := Except.ok.inj (hremoved.symm.trans hro)
  have haccepted : kept.isAccepted := (hverdicts loopsPlain_sums).1 rfl
  exact ⟨removing, keeping, hr, hk, hsame, p, q, hp, hq, _, kept, hro, hko, rfl, haccepted,
    hremovedIff.1 rfl, hkeptIff.1 haccepted⟩

/-! ### Verdicts that differ -/

/-- A script of listed tokens on which the verdicts differ. -/
def GrammarDescription.Disagrees (description : GrammarDescription) (tokens : List Token) : Prop :=
  ∃ removing keeping, Grammar.compile description {} = .ok removing ∧
    Grammar.compile description keepingLoops = .ok keeping ∧
    tokens ≠ [] ∧ (∀ t ∈ tokens, removing.lists t) ∧ ∃ p q,
      PushdownAutomaton.ofGrammar removing = .ok p ∧ PushdownAutomaton.ofGrammar keeping = .ok q ∧
      ∃ removed kept, (analyze removing p {} tokens).1 = .ok removed ∧
        (analyze keeping q {} tokens).1 = .ok kept ∧ ¬(removed.isAccepted ↔ kept.isAccepted)

theorem disagrees_of_verdicts {description : GrammarDescription} {tokens : List Token}
    {removed kept : Outcome} (hne : tokens ≠ [])
    (hl : (Grammar.compile description {}).map (fun g => tokens.all g.lists) = .ok true)
    (hr : description.verdict {} {} tokens = .ok removed)
    (hk : description.verdict keepingLoops {} tokens = .ok kept)
    (hno : ¬(removed.isAccepted ↔ kept.isAccepted)) : description.Disagrees tokens := by
  obtain ⟨removing, hr, p, hp, hremoved⟩ := verdict_eq_ok_iff.1 hr
  obtain ⟨keeping, hk, q, hq, hkept⟩ := verdict_eq_ok_iff.1 hk
  rw [hr] at hl
  exact ⟨removing, keeping, hr, hk, hne, List.all_eq_true.1 (Except.ok.inj hl), p, q, hp, hq,
    removed, kept, hremoved, hkept, hno⟩

/-- Any number of letters, none included. -/
def anyNumber : GrammarDescription :=
  descriptionOf (.mk "S" .medium [[], [.reference "S", literal "x"]])

/-- A left-recursive definition with another case that stands there twice. -/
def repeatedBase : GrammarDescription :=
  descriptionOf (.mk "S" .medium [[literal "a"], [literal "a"], [.reference "S", literal "x"]])

/-- A definition with a left-recursive case that stands there twice. -/
def repeatedTail : GrammarDescription :=
  descriptionOf (.mk "S" .medium [[literal "b"], [.reference "S", literal "x", literal "y"],
    [.reference "S", literal "x", literal "y"]])

/-- In three ways the verdicts differ. Merged for itself, an empty case derives nothing, and a case
or a tail that stands there twice is read without its last symbol as well. The removal adds tails
to the former and takes the latter as they are. -/
theorem disagreeing_descriptions : anyNumber.Disagrees [tokenAt 0 "x" 0] ∧
    repeatedBase.Disagrees [tokenAt 0 "x" 1] ∧
    repeatedTail.Disagrees [tokenAt 0 "b" 0, tokenAt 1 "x" 1] := by
  have hany : anyNumber.verdict keepingLoops {} [tokenAt 0 "x" 0] = .ok (.rejected ⟨.syntactic,
    .unexpectedToken, "Unexpected token x at (1;1). Expected: end of script", [tokenAt 0 "x" 0], 0,
    []⟩) := by cbv
  have hbase : repeatedBase.verdict {} {} [tokenAt 0 "x" 1] = .ok (.rejected ⟨.syntactic,
    .unexpectedToken, "Unexpected token x at (1;1). Expected: a", [tokenAt 0 "x" 1], 0,
    ["a"]⟩) := by cbv
  have htail : repeatedTail.verdict {} {} [tokenAt 0 "b" 0, tokenAt 1 "x" 1] = .ok (.rejected
    ⟨.syntactic, .unexpectedEndOfScript, "Unexpected end of script. Expected: y", [tokenAt 1 "x" 1],
    2, ["y"]⟩) := by cbv
  have hany' : anyNumber.verdict {} {} [tokenAt 0 "x" 0] = .ok (.accepted 3) := by cbv
  have hbase' : repeatedBase.verdict keepingLoops {} [tokenAt 0 "x" 1] = .ok (.accepted 4) := by cbv
  have htail' : repeatedTail.verdict keepingLoops {} [tokenAt 0 "b" 0, tokenAt 1 "x" 1] =
    .ok (.accepted 5) := by cbv
  have hanyLists : (Grammar.compile anyNumber {}).map
    (fun g => [tokenAt 0 "x" 0].all g.lists) = .ok true := by cbv
  have hbaseLists : (Grammar.compile repeatedBase {}).map
    (fun g => [tokenAt 0 "x" 1].all g.lists) = .ok true := by cbv
  have htailLists : (Grammar.compile repeatedTail {}).map
    (fun g => [tokenAt 0 "b" 0, tokenAt 1 "x" 1].all g.lists) = .ok true := by cbv
  have hfirst := disagrees_of_verdicts (List.cons_ne_nil _ _) hanyLists hany' hany (by decide)
  have hsecond := disagrees_of_verdicts (List.cons_ne_nil _ _) hbaseLists hbase hbase' (by decide)
  have hthird := disagrees_of_verdicts (List.cons_ne_nil _ _) htailLists htail htail' (by decide)
  exact ⟨hfirst, hsecond, hthird⟩

end Syntagma
