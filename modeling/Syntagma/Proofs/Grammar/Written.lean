import Syntagma.Proofs.Grammar.Compilation
import Syntagma.Proofs.Grammar.KeptLoops

/-! The grammar as it is written. The cases of a description are productions over the symbols that
they are made of, and a draft that the description was entered into has the same productions under
its own numbers. -/

namespace Syntagma

namespace GrammarDescription

variable (description : GrammarDescription)

/-- The definitions of a description, wherever they stand. -/
def definitions : List Definition := description.axiomDefinition.all

def start : Symbol := .named description.axiomDefinition.name

/-- The cases as they are written. Terminals and tokens are leaves. -/
def productions : Productions Symbol where
  leaf symbol := (∃ text, symbol = .terminal text) ∨ ∃ definition ∈ description.definitions,
    symbol = .named definition.name ∧ Draft.isTokenKind definition.kind
  rule symbol case := ∃ definition ∈ description.definitions,
    symbol = .named definition.name ∧ case ∈ definition.productions

/-- The same symbols with the cases as they are read. -/
def readings : Productions Symbol where
  leaf := description.productions.leaf
  rule symbol case := ∃ definition ∈ description.definitions,
    symbol = .named definition.name ∧ ReadsAs symbol definition.productions case

/-- The same symbols with left recursion kept. -/
def keptReadings : Productions Symbol where
  leaf := description.productions.leaf
  rule symbol case := ∃ definition ∈ description.definitions,
    symbol = .named definition.name ∧ KeptAs symbol definition.productions case

/-- A description that is read as it is written. Merging changes no definition, and the axiom is not
both a token and left-recursive. -/
structure Plain : Prop where
  unambiguous : ∀ definition ∈ description.definitions,
    (∃ case ∈ definition.productions, case.head? = some (.named definition.name)) ∨
      Unambiguous definition.productions
  start : ¬description.productions.leaf description.start ∨
    ∀ tail, ¬description.productions.rule description.start (description.start :: tail)

/-- A description whose left recursion can be kept as it is written. In the left-recursive
definitions that syntax goes into, merging changes neither the cases that do not start with the
definition nor the tails of the others, empty ones apart. -/
def LoopsPlain : Prop :=
  ∀ definition ∈ description.definitions,
    (∃ case ∈ definition.productions, case.head? = some (.named definition.name)) →
    (¬description.productions.leaf (.named definition.name) ∨
      .named definition.name = description.start) →
    Unambiguous (baseOf (.named definition.name) definition.productions) ∧
    ∀ tail, tail ≠ [] → (Reads (behind (.named definition.name) definition.productions) tail ↔
      tail ∈ behind (.named definition.name) definition.productions)

variable {description}

/-- The cases in one list, each behind the symbol it is a case of. -/
def rules (description : GrammarDescription) : List (Symbol × List Symbol) :=
  description.definitions.flatMap (fun definition =>
    definition.productions.map (fun case => (.named definition.name, case)))

theorem rule_iff_mem_rules {symbol : Symbol} {case : List Symbol} :
    description.productions.rule symbol case ↔ (symbol, case) ∈ description.rules := by
  simp only [productions, rules, List.mem_flatMap, List.mem_map, Prod.mk.injEq]
  refine exists_congr (fun definition => and_congr_right (fun _ => ?_))
  constructor
  · rintro ⟨rfl, hc⟩
    exact ⟨case, hc, rfl, rfl⟩
  · rintro ⟨_, hc, rfl, rfl⟩
    exact ⟨rfl, hc⟩

theorem leaf_terminal (text : String) : description.productions.leaf (.terminal text) :=
  .inl ⟨text, rfl⟩

theorem leaf_named_iff {name : String} : description.productions.leaf (.named name) ↔
    ∃ definition ∈ description.definitions,
      name = definition.name ∧ Draft.isTokenKind definition.kind := by
  simp [productions]

instance (symbol : Symbol) : Decidable (description.productions.leaf symbol) :=
  match symbol with
  | .terminal text => isTrue (leaf_terminal text)
  | .named _ => decidable_of_iff _ leaf_named_iff.symm

instance (symbol : Symbol) (case : List Symbol) :
    Decidable (description.productions.rule symbol case) :=
  decidable_of_iff _ rule_iff_mem_rules.symm

theorem Plain.readings_eq (h : description.Plain) :
    description.readings = description.productions := by
  have hrule (symbol : Symbol) (case : List Symbol) :
      description.readings.rule symbol case ↔ description.productions.rule symbol case := by
    refine exists_congr (fun definition => and_congr_right (fun hm => and_congr_right ?_))
    rintro rfl
    rcases h.unambiguous definition hm with hr | hu
    · exact readsAs_iff_of_recursive hr
    · exact readsAs_iff_of_unambiguous hu
  exact congrArg (Productions.mk _)
    (funext (fun symbol => funext (fun case => propext (hrule symbol case))))

/-- The axiom of a plain description derives what one of its cases, as written, derives. -/
theorem Plain.readings_enters_iff (h : description.Plain) {word : List Symbol} :
    description.readings.Enters description.start word ↔
      description.productions.Opens description.start word := by
  rw [h.readings_eq]
  rcases h.start with hleaf | hself
  · exact Productions.enters_iff_of_not_leaf hleaf
  · exact Productions.enters_iff_of_not_recursive hself

/-- The two readings differ in nothing but cases that are a symbol by itself. -/
theorem LoopsPlain.rule_iff (h : description.LoopsPlain) {symbol : Symbol} {case : List Symbol}
    (hs : ¬description.productions.leaf symbol ∨ symbol = description.start)
    (hc : case ≠ [symbol]) :
    description.keptReadings.rule symbol case ↔ description.readings.rule symbol case := by
  refine exists_congr (fun definition => and_congr_right (fun hm => and_congr_right ?_))
  rintro rfl
  by_cases hr : ∃ case ∈ definition.productions, case.head? = some (.named definition.name)
  · obtain ⟨hbase, htails⟩ := h definition hm hr hs
    rw [readsAs_iff_of_recursive hr, KeptAs, hbase case, mem_baseOf]
    constructor
    · rintro (⟨hcase, -⟩ | ⟨tail, rfl, ht⟩)
      · exact hcase
      · have hne : tail ≠ [] := fun he => hc (he ▸ rfl)
        exact mem_behind.1 ((htails tail hne).1 ht)
    · intro hcase
      by_cases hh : case.head? = some (.named definition.name)
      · obtain ⟨tail, rfl⟩ := List.head?_eq_some_iff.1 hh
        have hne : tail ≠ [] := fun he => hc (he ▸ rfl)
        exact .inr ⟨tail, rfl, (htails tail hne).2 (mem_behind.2 hcase)⟩
      · exact .inl ⟨hcase, hh⟩
  · have hno : ∀ other ∈ definition.productions, other.head? ≠ some (.named definition.name) :=
      fun other ho hh => hr ⟨other, ho, hh⟩
    rw [readsAs_iff_of_not_recursive hno, keptAs_iff_of_not_recursive hno]

/-- It is enough that the cases of the left-recursive definitions are distinct, and that each has
one that is not empty and does not start with the definition. -/
theorem loopsPlain_of_nodup (h : ∀ definition ∈ description.definitions,
    (∃ case ∈ definition.productions, case.head? = some (.named definition.name)) →
    definition.productions.Nodup ∧ ∃ case ∈ definition.productions,
      case ≠ [] ∧ case.head? ≠ some (.named definition.name)) : description.LoopsPlain := by
  intro definition hm hr _
  obtain ⟨hnodup, case, hc, hne, hhead⟩ := h definition hm hr
  refine ⟨unambiguous_of_nodup (nodup_baseOf hnodup) ⟨case, mem_baseOf.2 ⟨hc, hhead⟩, hne⟩,
    fun tail ht => ⟨fun hread => ?_, fun htail => ⟨⟨tail, htail, ht⟩, .inl htail⟩⟩⟩
  exact (unambiguous_of_nodup (nodup_behind hnodup) hread.1 tail).1 hread

theorem LoopsPlain.enters_iff (h : description.LoopsPlain) {word : List Symbol} :
    description.keptReadings.Enters description.start word ↔
      description.readings.Enters description.start word :=
  Productions.enters_iff_of_rules (fun _ => Iff.rfl) (fun _ _ hs hc => h.rule_iff hs hc)

end GrammarDescription

namespace Draft

variable {d : Draft} {id : NodeId}

/-- The symbol of a node that has one. -/
def symbolOf (d : Draft) (id : NodeId) : Symbol := (d.symbol? id).getD default

theorem symbolOf_eq {s : Symbol} (h : d.symbol? id = some s) : d.symbolOf id = s := by
  rw [symbolOf, h, Option.getD_some]

theorem isTokenKey_of_terminal {text : String} (h : d.symbol? id = some (.terminal text)) :
    d.isTokenKey id := by
  obtain ⟨n, hn, hs⟩ := Option.bind_eq_some_iff.1 h
  rw [isTokenKey, hn, Option.any_some, Node.isTokenKey, (symbol?_eq_terminal_iff.1 hs).1,
    Bool.true_or]

theorem casesOf_of_terminal {text : String} (h : d.symbol? id = some (.terminal text)) :
    d.casesOf id = [] := by
  obtain ⟨n, hn, hs⟩ := Option.bind_eq_some_iff.1 h
  obtain ⟨_, _, _, kind⟩ := n
  rw [casesOf_of_shape? hn]
  cases kind <;> first | rfl | exact nomatch hs

theorem Holds.map_symbolOf {definition : Definition} (h : d.Holds id definition) :
    (d.casesOf id).map (·.map d.symbolOf) = definition.productions := by
  have hc := congrArg (List.map (List.map (fun symbol? => symbol?.getD default))) h.cases
  simp only [List.map_map, Function.comp_def, Option.getD_some, List.map_id'] at hc
  exact hc

section Entered

variable {definitions : List Definition} (hd : d.Proper) (ha : Added .empty d definitions)

include ha

theorem symbol?_eq_symbolOf (hid : id < d.nodes.size) : d.symbol? id = some (d.symbolOf id) := by
  rcases ha.new id (Nat.zero_le id) hid with ⟨text, hs⟩ | ⟨definition, -, hh⟩
  · rw [symbolOf_eq hs, hs]
  · rw [symbolOf_eq hh.symbol, hh.symbol]

include hd

theorem symbolOf_inj {i j : NodeId} (hi : i < d.nodes.size) (hj : j < d.nodes.size)
    (h : d.symbolOf i = d.symbolOf j) : i = j :=
  hd.symbol_inj i j _ (symbol?_eq_symbolOf ha hi) (h ▸ symbol?_eq_symbolOf ha hj)

/-- Names are unique, so a node with the name of a definition stands for that definition. -/
theorem holds_of_symbolOf (hid : id < d.nodes.size) {definition : Definition}
    (hm : definition ∈ definitions) (h : d.symbolOf id = .named definition.name) :
    d.Holds id definition := by
  obtain ⟨i, -, hi⟩ := ha.holds definition hm
  obtain rfl := hd.symbol_inj i id _ hi.symbol (h ▸ symbol?_eq_symbolOf ha hid)
  exact hi

end Entered

/-- The nodes of a draft are the symbols of the description that was entered into it, whichever way
the cases are read, if it is one that goes by what stands where in them. -/
theorem renames_of_map {description : GrammarDescription} (hd : d.Proper)
    (ha : Added .empty d description.definitions)
    {R : NodeId → List (List NodeId) → List NodeId → Prop}
    {S : Symbol → List (List Symbol) → List Symbol → Prop}
    (hbegins : ∀ {i cases case}, R i cases case → ∃ other ∈ cases, case <+: other)
    (hmap : ∀ i < d.nodes.size, ∀ read,
      (S (d.symbolOf i) ((d.casesOf i).map (·.map d.symbolOf)) read ↔
        ∃ case, read = case.map d.symbolOf ∧ R i (d.casesOf i) case)) :
    Productions.Renames ⟨fun i => d.isTokenKey i, fun i case => R i (d.casesOf i) case⟩
      ⟨description.productions.leaf, fun symbol case => ∃ definition ∈ description.definitions,
        symbol = .named definition.name ∧ S symbol definition.productions case⟩
      (· < d.nodes.size) d.symbolOf := by
  refine ⟨fun _ _ => symbolOf_inj hd ha, fun i case _ hr x hx => ?_, fun i hi => ?_,
    fun i read hi => ?_⟩
  · obtain ⟨other, ho, hp⟩ := hbegins hr
    exact hd.cases_lt i other ho x (hp.subset hx)
  · constructor
    · rintro (⟨text, hs⟩ | ⟨definition, hm, hs, hk⟩)
      · exact isTokenKey_of_terminal (hs ▸ symbol?_eq_symbolOf ha hi)
      · exact (holds_of_symbolOf hd ha hi hm hs).token.trans hk
    · intro hk
      rcases ha.new i (Nat.zero_le i) hi with ⟨text, hs⟩ | ⟨definition, hm, hh⟩
      · exact .inl ⟨text, symbolOf_eq hs⟩
      · exact .inr ⟨definition, hm, symbolOf_eq hh.symbol, hh.token.symm.trans hk⟩
  · have hread {definition : Definition} (hh : d.Holds i definition) :
        S (d.symbolOf i) definition.productions read ↔
          ∃ case, read = case.map d.symbolOf ∧ R i (d.casesOf i) case := by
      rw [← hh.map_symbolOf]
      exact hmap i hi read
    constructor
    · rintro ⟨definition, hm, hs, hr⟩
      exact (hread (holds_of_symbolOf hd ha hi hm hs)).1 hr
    · intro hr
      rcases ha.new i (Nat.zero_le i) hi with ⟨text, hs⟩ | ⟨definition, hm, hh⟩
      · -- a terminal has no cases to read
        obtain ⟨case, -, hr⟩ := hr
        obtain ⟨other, ho, -⟩ := hbegins hr
        rw [casesOf_of_terminal hs] at ho
        exact absurd ho List.not_mem_nil
      · exact ⟨definition, hm, symbolOf_eq hh.symbol, (hread hh).2 hr⟩

theorem renames_readings {description : GrammarDescription} (hd : d.Proper)
    (ha : Added .empty d description.definitions) :
    Productions.Renames d.reading description.readings (· < d.nodes.size) d.symbolOf :=
  renames_of_map hd ha exists_prefix_of_readsAs
    (fun i hi => readsAs_map_iff (fun _ _ => symbolOf_inj hd ha) hi (hd.cases_lt i))

theorem renames_keptReadings {description : GrammarDescription} (hd : d.Proper)
    (ha : Added .empty d description.definitions) :
    Productions.Renames d.keptReading description.keptReadings (· < d.nodes.size) d.symbolOf :=
  renames_of_map hd ha exists_prefix_of_keptAs
    (fun i hi => keptAs_map_iff (fun _ _ => symbolOf_inj hd ha) hi (hd.cases_lt i))

end Draft

end Syntagma
