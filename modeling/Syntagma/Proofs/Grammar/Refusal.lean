import Syntagma.Proofs.Automaton.StrategyAgreement
import Syntagma.Proofs.Grammar.Compilation
import Syntagma.Proofs.Grammar.Entering
import Syntagma.Proofs.Grammar.Factorization

/-! Which descriptions are refused. Once a description is entered, a medium that has cases that start
with itself and no others is refused, whether left recursion is removed or kept, and nothing else is.
So compilation succeeds exactly on the descriptions that keep to what is asked of their elements, that
begin with a medium, and whose left-recursive mediums have a case to begin with. -/

namespace Syntagma

/-- A definition with a case that starts with itself also has one that does not. -/
def Definition.Based (definition : Definition) : Prop :=
  (∃ case ∈ definition.productions, case.head? = some (.named definition.name)) →
    ∃ case ∈ definition.productions, case.head? ≠ some (.named definition.name)

namespace Draft

variable {d d' : Draft} {id : NodeId} {options : GrammarOptions}

/-- A medium with a case that starts with itself also has one that does not. -/
def Based (d : Draft) (id : NodeId) : Prop := d.recursiveCases id ≠ [] → d.baseCases id ≠ []

theorem based_iff_of_casesOf (h : d'.casesOf id = d.casesOf id) : d'.Based id ↔ d.Based id := by
  unfold Based recursiveCases baseCases
  rw [h]

theorem exists_removeFromMedium_iff : (∃ d', d.removeFromMedium id = .ok d') ↔ d.Based id := by
  unfold removeFromMedium Based
  dsimp only
  by_cases hr : d.recursiveCases id = []
  · simp [hr]
  · by_cases hb : d.baseCases id = [] <;> simp [hr, hb]

theorem exists_factorizeKeeping_iff : (∃ d', d.factorizeKeeping id = .ok d') ↔ d.Based id := by
  unfold factorizeKeeping Based
  dsimp only
  by_cases hr : d.recursiveCases id = []
  · simp [hr]
  · by_cases hb : d.baseCases id = [] <;> simp [hr, hb]

/-- Steps for one medium after another succeed if each medium has what its step needs, as no step
takes it from a medium. -/
theorem exists_foldlM_iff {step : Draft → NodeId → Except Fault Draft}
    (hok : ∀ d id, (∃ d', step d id = .ok d') ↔ d.Based id)
    (hkept : ∀ {d d' : Draft} {id : NodeId}, d.Sound → step d id = .ok d' →
      d'.Sound ∧ d.nodes.size ≤ d'.nodes.size ∧
        ∀ i < d.nodes.size, (d'.Based i ↔ d.Based i))
    {ids : List NodeId} (hd : d.Sound) (hids : ∀ id ∈ ids, id < d.nodes.size) :
    (∃ d', ids.foldlM step d = .ok d') ↔ ∀ id ∈ ids, d.Based id := by
  induction ids generalizing d with
  | nil => exact ⟨fun _ id hid => absurd hid List.not_mem_nil, fun _ => ⟨d, rfl⟩⟩
  | cons id ids ih =>
    rw [List.foldlM_cons, List.forall_mem_cons, ← hok d id]
    have hrest {d₁ : Draft} (h₁ : step d id = .ok d₁) :
        (∃ d', ids.foldlM step d₁ = .ok d') ↔ ∀ i ∈ ids, d.Based i := by
      obtain ⟨hs, hsize, hb⟩ := hkept hd h₁
      have hlt (i : NodeId) (hi : i ∈ ids) : i < d.nodes.size := hids i (List.mem_cons_of_mem id hi)
      rw [ih hs (fun i hi => Nat.lt_of_lt_of_le (hlt i hi) hsize)]
      exact forall₂_congr (fun i hi => hb i (hlt i hi))
    rw [Fault.exists_bind_eq_ok_iff]
    exact ⟨fun ⟨d₁, h₁, h⟩ => ⟨⟨d₁, h₁⟩, (hrest h₁).1 h⟩,
      fun ⟨⟨d₁, h₁⟩, hall⟩ => ⟨d₁, h₁, (hrest h₁).2 hall⟩⟩

/-- Removal leaves every medium with a case to begin with. -/
theorem based_iff_of_removeFromMedium (hd : d.Sound) (h : d.removeFromMedium id = .ok d')
    {i : NodeId} (hi : i < d.nodes.size) : d'.Based i ↔ d.Based i := by
  have hu := unrolled_of_removeFromMedium hd h
  by_cases he : i = id
  · subst he
    exact iff_of_true (fun hr => absurd hu.done hr) (exists_removeFromMedium_iff.1 ⟨d', h⟩)
  · exact based_iff_of_casesOf (hu.other i hi he)

/-- Whether left recursion is removed or kept, it takes the same to succeed. -/
theorem exists_factorizeAll_iff (hd : d.Sound) :
    (∃ d', d.factorizeAll options = .ok d') ↔ ∀ id ∈ d.mediumIds, d.Based id := by
  have hids (id : NodeId) (hm : id ∈ d.mediumIds) : id < d.nodes.size :=
    lt_size_of_isMedium ((mem_mediumIds hd).1 hm)
  unfold factorizeAll
  split
  · rw [← exists_foldlM_iff (fun d id => exists_removeFromMedium_iff)
      (fun hd h => ⟨hd.removeFromMedium h, (keeps_removeFromMedium h).size_le,
        fun i hi => based_iff_of_removeFromMedium hd h hi⟩) hd hids]
    rw [Fault.exists_bind_eq_ok_iff]
    exact exists_congr (fun d₁ => and_iff_left ⟨_, rfl⟩)
  · refine exists_foldlM_iff (fun d id => exists_factorizeKeeping_iff) (fun hd h => ?_) hd hids
    have hfit := refits_factorizeKeeping hd h
    exact ⟨hd.of_refits hfit, hfit.keeps.size_le,
      fun i hi => based_iff_of_casesOf (hfit.casesOf hi)⟩

/-! ### Definitions and their nodes -/

/-- Lists that look alike have the same kinds of members. -/
theorem exists_mem_iff_of_map_eq {α β γ : Type} {f : α → γ} {g : β → γ} {l : List α} {m : List β}
    (h : l.map f = m.map g) {p : α → Prop} {q : β → Prop}
    (hpq : ∀ a ∈ l, ∀ b ∈ m, f a = g b → (p a ↔ q b)) : (∃ a ∈ l, p a) ↔ ∃ b ∈ m, q b := by
  constructor
  · rintro ⟨a, ha, hp⟩
    obtain ⟨b, hb, he⟩ := List.mem_map.1 (h ▸ List.mem_map_of_mem ha)
    exact ⟨b, hb, (hpq a ha b hb he.symm).1 hp⟩
  · rintro ⟨b, hb, hq⟩
    obtain ⟨a, ha, he⟩ := List.mem_map.1 (h.symm ▸ List.mem_map_of_mem hb)
    exact ⟨a, ha, (hpq a ha b hb he).2 hq⟩

/-- A node that stands for a definition has its recursive cases and its others. -/
theorem Holds.based_iff (hd : d.Proper) {definition : Definition} (h : d.Holds id definition) :
    d.Based id ↔ definition.Based := by
  have hhead : ∀ case ∈ d.casesOf id, ∀ production ∈ definition.productions,
      case.map d.symbol? = production.map some →
      (case.head? = some id ↔ production.head? = some (.named definition.name)) := by
    intro case _ production _ he
    cases case with
    | nil =>
      cases production with
      | nil => simp
      | cons s production => cases he
    | cons x case =>
      cases production with
      | nil => cases he
      | cons s production =>
        have hx : d.symbol? x = some s := (List.cons.inj he).1
        simp only [List.head?_cons, Option.some.injEq]
        constructor
        · rintro rfl
          exact Option.some.inj (hx.symm.trans h.symbol)
        · rintro rfl
          exact hd.symbol_inj x id _ hx h.symbol
  have hrecursive : d.recursiveCases id ≠ [] ↔ ∃ case ∈ d.casesOf id, case.head? = some id := by
    rw [ne_eq, recursiveCases_eq_nil_iff]
    push Not
    rfl
  have hbase : d.baseCases id ≠ [] ↔ ∃ case ∈ d.casesOf id, case.head? ≠ some id := by
    constructor
    · intro hne
      obtain ⟨case, hc⟩ := List.exists_mem_of_ne_nil _ hne
      exact ⟨case, mem_baseCases.1 hc⟩
    · rintro ⟨case, hc⟩
      exact List.ne_nil_of_mem (mem_baseCases.2 hc)
  unfold Based Definition.Based
  rw [hrecursive, hbase, exists_mem_iff_of_map_eq h.cases hhead,
    exists_mem_iff_of_map_eq h.cases (fun a ha b hb he => not_congr (hhead a ha b hb he))]

/-- All mediums of an entered description have a case to begin with if all its definitions do. -/
theorem forall_based_iff {definitions : List Definition} (hd : d.Proper)
    (h : Added .empty d definitions) :
    (∀ id ∈ d.mediumIds, d.Based id) ↔ ∀ definition ∈ definitions, definition.Based := by
  constructor
  · intro hall definition hm
    obtain ⟨id, -, hholds⟩ := h.holds definition hm
    by_cases hk : isClassKind definition.kind
    · rintro ⟨case, hc, -⟩
      rw [Definition.productions, if_pos hk] at hc
      cases hc
    · refine (hholds.based_iff hd).1 (hall id ((mem_mediumIds hd.sound).2 ?_))
      rw [hholds.medium, Bool.eq_false_iff.2 hk]
      rfl
  · intro hall id hid
    have hm := (mem_mediumIds hd.sound).1 hid
    rcases h.new id (Nat.zero_le _) (lt_size_of_isMedium hm) with ⟨text, hs⟩ | ⟨definition, hdef, hh⟩
    · obtain ⟨n, hn, hterminal⟩ := Option.bind_eq_some_iff.1 hs
      rw [hn, Option.any_some] at hm
      obtain ⟨_, _, _, kind⟩ := n
      cases kind with
      | terminal data => cases hm
      | _ => cases hterminal
    · exact (hh.based_iff hd).2 (hall definition hdef)

end Draft

/-! ### Compilation -/

variable {description : GrammarDescription} {options : GrammarOptions} {start : NodeId}
  {entered : Draft}

/-- What a description must keep to. -/
structure Definition.Compilable (definition : Definition) : Prop where
  notClass : Draft.isClassKind definition.kind = false
  consistent : definition.Consistent
  based : ∀ inner ∈ definition.all, inner.Based

namespace Grammar

/-- A description that begins with a class is refused after it is entered. -/
theorem not_isClassKind_of_compile {g : Grammar} (h : compile description options = .ok g) :
    Draft.isClassKind description.axiomDefinition.kind = false := by
  obtain ⟨start, entered, classed, factorized, hc⟩ := compiled_of_compile h
  have hmedium := Draft.isMedium_of_addDefinition Draft.proper_empty hc.entry
  rw [hc.medium] at hmedium
  exact (Bool.not_eq_true' _).mp hmedium.symm

/-- A description that was entered and begins with a medium is compiled if its mediums can be
factorized. -/
theorem exists_compile_iff_of_entry (hentry : Draft.addDefinition options false
      description.axiomDefinition .empty = .ok (start, entered))
    (hm : (entered.shape? start).any (·.isMedium)) : ∃ tokenClasses unclassified,
    (∃ g, compile description options = .ok g) ↔
      ∃ d, (entered.classed tokenClasses unclassified).factorizeAll options = .ok d := by
  have hrefused : ¬(!entered.nodes[start]?.any (·.isMedium)) = true := by
    rw [Draft.shape?] at hm
    cases hn : entered.nodes[start]? with
    | none => rw [hn] at hm; cases hm
    | some n => simpa [hn] using hm
  refine ⟨(ClassTable.ofNames description.unclassifiedName description.undefinedName
    description.whiteDelimiters).tokenClasses,
    (Coverage.ofTerminals entered.declaredClasses entered.listedTerminals).unclassified, ?_⟩
  unfold compile
  rw [hentry, Fault.exists_bind_eq_ok_iff]
  constructor
  · rintro ⟨_, he, h⟩
    cases he
    dsimp only at h
    rw [if_neg hrefused, Fault.exists_bind_eq_ok_iff] at h
    obtain ⟨d, hd, -⟩ := h
    exact ⟨d, hd⟩
  · rintro ⟨d, hd⟩
    refine ⟨_, rfl, ?_⟩
    dsimp only
    rw [if_neg hrefused, Fault.exists_bind_eq_ok_iff]
    exact ⟨d, hd, _, rfl⟩

/-- A fault that is met while the description is entered is what compilation ends with. -/
theorem compile_eq_error (hk : Draft.isClassKind description.axiomDefinition.kind = false)
    {o : Occurrence} {kind : FaultKind}
    (h : FirstFault [] (description.axiomDefinition.occurrences false []) o kind) :
    compile description options = .error ⟨kind, some ⟨none, o.frames⟩⟩ := by
  have hends := Draft.addDefinition_ends Draft.proper_empty Draft.reflects_empty options false []
    description.axiomDefinition hk
  obtain ⟨frames, hframes, herror⟩ := hends.refuses o kind h
  rw [List.append_nil] at hframes
  have hne : frames.isEmpty = false := by
    have hlast := h.getLast?_frames hk
    rw [hframes] at hlast
    cases frames with
    | nil => cases hlast
    | cons name frames => rfl
  unfold compile
  rw [herror, hframes, Fault.within, hne]
  rfl

/-- A description that begins with a medium and keeps to what is asked of its elements is compiled
unless a medium has no case to begin with. -/
theorem exists_compile_iff_based (hk : Draft.isClassKind description.axiomDefinition.kind = false)
    (hc : description.axiomDefinition.Consistent) :
    (∃ g, compile description options = .ok g) ↔
      ∀ inner ∈ description.axiomDefinition.all, inner.Based := by
  have hends := Draft.addDefinition_ends Draft.proper_empty Draft.reflects_empty options false []
    description.axiomDefinition hk
  obtain ⟨start, entered, hentry, -⟩ := hends.enters hc.faultless
  obtain ⟨hproper, hadded, -⟩ := Draft.addDefinition_added Draft.proper_empty hentry
  have hm : (entered.shape? start).any (·.isMedium) := by
    rw [Draft.isMedium_of_addDefinition Draft.proper_empty hentry, hk]
    rfl
  obtain ⟨tokenClasses, unclassified, hiff⟩ := exists_compile_iff_of_entry hentry hm
  have hshape := Draft.shape?_classed entered tokenClasses unclassified
  have hproper' := hproper.of_shape? hshape
  have hadded' : Draft.Added .empty (entered.classed tokenClasses unclassified)
      description.axiomDefinition.all := by
    have hall := hadded.trans (.of_shape? hshape)
    rwa [List.append_nil] at hall
  rw [hiff, Draft.exists_factorizeAll_iff hproper'.sound, Draft.forall_based_iff hproper' hadded']

/-- A description is compiled exactly if it keeps to what is asked of it. If it begins with a medium
and something is wrong with an element, it is refused with the first such fault, which is told with
the definitions around it up to the outermost one. -/
theorem compile_accepts_or_tells_first_fault (description : GrammarDescription)
    (options : GrammarOptions) :
    ((∃ g, compile description options = .ok g) ↔ description.axiomDefinition.Compilable) ∧
    (Draft.isClassKind description.axiomDefinition.kind = false →
      ((∃ o kind, FirstFault [] (description.axiomDefinition.occurrences false []) o kind) ↔
        ¬description.axiomDefinition.Consistent) ∧
      ∀ o kind, FirstFault [] (description.axiomDefinition.occurrences false []) o kind →
        compile description options = .error ⟨kind, some ⟨none, o.frames⟩⟩ ∧
        o.frames.getLast? = some description.axiomDefinition.name) := by
  refine ⟨⟨fun ⟨g, hg⟩ => ?_, fun h => ?_⟩, fun hk => ⟨?_, fun o kind h => ?_⟩⟩
  · have hk := not_isClassKind_of_compile hg
    have hc : description.axiomDefinition.Consistent := by
      refine Definition.faultless_iff_consistent.1 (Classical.byContradiction (fun hnot => ?_))
      obtain ⟨o, kind, hfirst⟩ := exists_firstFault hnot
      cases hg.symm.trans (compile_eq_error hk hfirst)
    exact ⟨hk, hc, (exists_compile_iff_based hk hc).1 ⟨g, hg⟩⟩
  · exact (exists_compile_iff_based h.notClass h.consistent).2 h.based
  · rw [← Definition.faultless_iff_consistent]
    exact ⟨fun ⟨o, kind, hfirst⟩ => hfirst.not_faultless, exists_firstFault⟩
  · exact ⟨compile_eq_error hk h, h.getLast?_frames hk⟩

/-- A sign with one execution class, in front of a left-recursive definition in which it stands
again, with another one. -/
def signs (first second : String) : GrammarDescription :=
  descriptionOf (.mk "Sum" .medium
    [[.terminal ⟨"+", some first, [], [], none, none⟩, .definition (.mk "Term" .medium
      [[.reference "Term", literal "x"],
        [.terminal ⟨"+", some second, [], [], none, none⟩]])]])

/-- With one execution class for both places the description is compiled. With two, the second place
is the first one at fault, in both definitions. -/
theorem signs_accepted_or_refused : (signs "plus" "plus").axiomDefinition.Compilable ∧
    ∃ o, o.frames = ["Term", "Sum"] ∧
      FirstFault [] ((signs "plus" "sign").axiomDefinition.occurrences false []) o
        (.conflictingExecClass "+" "plus" "sign") ∧
      compile (signs "plus" "sign") {} = .error ⟨.conflictingExecClass "+" "plus" "sign",
        some ⟨none, ["Term", "Sum"]⟩⟩ := by
  have hok : (compile (signs "plus" "plus") {}).map (fun _ => ()) = .ok () := by cbv
  obtain ⟨g, hg, -⟩ := Fault.map_eq_ok_iff.1 hok
  have hfirst : FirstFault [] ((signs "plus" "sign").axiomDefinition.occurrences false [])
      ⟨.terminal ⟨"+", some "sign", [], [], none, none⟩, false, ["Term", "Sum"]⟩
      (.conflictingExecClass "+" "plus" "sign") := by
    refine .later (fun kind hv => ?_) (.later (fun kind hv => ?_) (.later (fun kind hv => ?_)
      (.later (fun kind hv => ?_) (.later (fun kind hv => ?_) (.here (.conflict ?_ ?_ ?_))))))
    · simpa [Draft.isClassKind, Definition.kind] using hv.of_definition rfl
    · simpa [Occurrence.Gives] using hv.of_terminal rfl
    · simpa [Occurrence.Defines, Occurrence.definition?, Definition.name, Definition.kind,
        Draft.isClassKind] using hv.of_definition rfl
    · simpa [Occurrence.Defines, Occurrence.definition?, Definition.name, Definition.kind,
        Draft.isClassKind] using hv.of_reference rfl
    · simpa using hv.of_terminal rfl
    · exact ⟨_, rfl, rfl, rfl⟩
    · exact ⟨⟨.terminal ⟨"+", some "plus", [], [], none, none⟩, false, ["Sum"]⟩,
        by simp [Draft.isTokenKind], _, rfl, rfl, rfl⟩
    · decide
  have hrefused := compile_accepts_or_tells_first_fault (signs "plus" "sign") {}
  exact ⟨(compile_accepts_or_tells_first_fault (signs "plus" "plus") {}).1.1 ⟨g, hg⟩, _, rfl, hfirst,
    ((hrefused.2 rfl).2 _ _ hfirst).1⟩

end Grammar

end Syntagma
