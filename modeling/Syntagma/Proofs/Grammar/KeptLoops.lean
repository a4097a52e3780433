import Syntagma.Proofs.Grammar.Factorization

/-! Left recursion that is kept. A medium is read as its cases that do not start with it, merged for
themselves, followed by the tails of the others, merged for themselves. In the end the tries spell
the former and the loops behind them the latter. -/

namespace Syntagma

/-! ### What is read -/

section KeptReading

variable {α : Type} [DecidableEq α] {self : α} {cases : List (List α)} {case : List α}

/-- What is read for a symbol whose left recursion is kept. -/
def KeptAs (self : α) (cases : List (List α)) (case : List α) : Prop :=
  Reads (baseOf self cases) case ∨ ∃ tail, case = self :: tail ∧ Reads (behind self cases) tail

theorem nodup_baseOf (h : cases.Nodup) : (baseOf self cases).Nodup := h.filter _

theorem nodup_behind (h : cases.Nodup) : (behind self cases).Nodup := by
  refine (h.filter _).map_on (fun case hc other ho he => ?_)
  obtain ⟨tail, rfl⟩ := List.head?_eq_some_iff.1 (beq_iff_eq.1 (List.mem_filter.1 hc).2)
  obtain ⟨tail', rfl⟩ := List.head?_eq_some_iff.1 (beq_iff_eq.1 (List.mem_filter.1 ho).2)
  exact congrArg (List.cons self) he

/-- Nothing that is read for the other cases starts with the symbol. -/
theorem head_ne_of_reads_baseOf (h : Reads (baseOf self cases) case) : case.head? ≠ some self := by
  obtain ⟨other, ho, more, rfl⟩ := exists_prefix_of_reads h
  intro hh
  obtain ⟨tail, rfl⟩ := List.head?_eq_some_iff.1 hh
  exact (mem_baseOf.1 ho).2 rfl

theorem exists_prefix_of_keptAs (h : KeptAs self cases case) : ∃ other ∈ cases, case <+: other := by
  rcases h with h | ⟨tail, rfl, h⟩
  · obtain ⟨other, ho, hp⟩ := exists_prefix_of_reads h
    exact ⟨other, (mem_baseOf.1 ho).1, hp⟩
  · obtain ⟨other, ho, hp⟩ := exists_prefix_of_reads h
    exact ⟨self :: other, mem_behind.1 ho, List.cons_prefix_cons.2 ⟨rfl, hp⟩⟩

theorem baseOf_eq_self (h : ∀ other ∈ cases, other.head? ≠ some self) : baseOf self cases = cases :=
  List.filter_eq_self.2 (fun other ho => by simpa using h other ho)

theorem behind_eq_nil (h : ∀ other ∈ cases, other.head? ≠ some self) : behind self cases = [] :=
  List.eq_nil_iff_forall_not_mem.2 (fun _ ht => h _ (mem_behind.1 ht) rfl)

/-- Without left recursion there is nothing to keep. -/
theorem keptAs_iff_of_not_recursive (h : ∀ other ∈ cases, other.head? ≠ some self) :
    KeptAs self cases case ↔ Reads cases case := by
  rw [KeptAs, baseOf_eq_self h, behind_eq_nil h]
  refine or_iff_left ?_
  rintro ⟨tail, -, ht⟩
  exact not_reads_nil tail ht

end KeptReading

section KeptRenaming

variable {α β : Type} [DecidableEq α] [DecidableEq β] {dom : α → Prop} {f : α → β} {self : α}
  {cases : List (List α)}

variable (hinj : ∀ x y, dom x → dom y → f x = f y → x = y) (hself : dom self)
  (hc : ∀ other ∈ cases, ∀ x ∈ other, dom x)

include hinj hself hc

theorem startsWith_map {other : List α} (ho : other ∈ cases) :
    ((other.map f).head? == some (f self)) = (other.head? == some self) := by
  rw [Bool.eq_iff_iff, beq_iff_eq, beq_iff_eq]
  exact head?_map_eq_iff hinj hself (hc other ho)

theorem baseOf_map : baseOf (f self) (cases.map (·.map f)) = (baseOf self cases).map (·.map f) := by
  rw [baseOf, baseOf, List.filter_map]
  refine congrArg _ (List.filter_congr (fun other ho => ?_))
  rw [Function.comp_apply, startsWith_map hinj hself hc ho]

theorem behind_map : behind (f self) (cases.map (·.map f)) = (behind self cases).map (·.map f) := by
  have hfilter : cases.filter ((fun case => case.head? == some (f self)) ∘ (·.map f)) =
      cases.filter (fun case => case.head? == some self) := by
    refine List.filter_congr (fun other ho => ?_)
    rw [Function.comp_apply, startsWith_map hinj hself hc ho]
  rw [behind, behind, List.filter_map, List.map_map, List.map_map, hfilter]
  exact List.map_congr_left (fun case _ => List.map_drop.symm)

theorem keptAs_map_iff (read : List β) : KeptAs (f self) (cases.map (·.map f)) read ↔
    ∃ case, read = case.map f ∧ KeptAs self cases case := by
  have hbase : ∀ other ∈ baseOf self cases, ∀ x ∈ other, dom x :=
    fun other ho => hc other (mem_baseOf.1 ho).1
  have hbehind : ∀ other ∈ behind self cases, ∀ x ∈ other, dom x :=
    fun other ho x hx => hc _ (mem_behind.1 ho) x (List.mem_cons_of_mem self hx)
  rw [KeptAs, baseOf_map hinj hself hc, behind_map hinj hself hc, reads_map_iff hinj hbase]
  simp only [reads_map_iff hinj hbehind]
  constructor
  · rintro (⟨case, rfl, h⟩ | ⟨_, rfl, tail, rfl, h⟩)
    · exact ⟨case, rfl, .inl h⟩
    · exact ⟨self :: tail, rfl, .inr ⟨tail, rfl, h⟩⟩
  · rintro ⟨_, rfl, h | ⟨tail, rfl, h⟩⟩
    · exact .inl ⟨_, rfl, h⟩
    · exact .inr ⟨_, rfl, tail, rfl, h⟩

end KeptRenaming

namespace Draft

variable {d d' : Draft} {id : NodeId}

/-- The nodes of a draft as symbols, with left recursion kept. -/
def keptReading (d : Draft) : Productions NodeId where
  leaf id := d.isTokenKey id
  rule id case := KeptAs id (d.casesOf id) case

/-! ### One medium -/

/-- The trie of a node spells what is read for its own cases, and the loop behind it repeats what is
read for its tails. -/
def Kept (d : Draft) (cases : List (List NodeId)) (id : NodeId) : Prop :=
  ∃ trie, d.trie? id = some trie ∧
    (∀ d', d.KeepsFactors d' → ∀ w, trie.Spells d'.trie? w ↔ Reads (baseOf id cases) w) ∧
    d.Repeating (behind id cases) trie.recursion

/-- Whatever stands behind a trie is a loop through some tails. -/
def Looped (d : Draft) : Prop :=
  ∀ id trie, d.trie? id = some trie → ∃ tails, d.Repeating tails trie.recursion

theorem Kept.of_keeps {cases : List (List NodeId)} (hk : d.KeepsFactors d')
    (ht : d'.trie? id = d.trie? id) (h : Kept d cases id) : Kept d' cases id := by
  obtain ⟨trie, hid, hreads, hrep⟩ := h
  exact ⟨trie, ht.trans hid, fun d'' hk' => hreads d'' (hk.trans hk'), hrep.of_keeps hk⟩

theorem Loopless.looped (h : d.Loopless) : d.Looped := by
  intro id trie ht
  rw [h id trie ht]
  exact ⟨[], not_reads_nil⟩

theorem equips_factorizeKeeping (hd : d.Sound) (hm : (d.shape? id).any (·.isMedium))
    (h : d.factorizeKeeping id = .ok d') : Equips Kept Looped id d d' := by
  have hfit := refits_factorizeKeeping hd h
  obtain ⟨d₁, trie, hg, -, rfl, hreads, hrep⟩ := factorizeKeeping_spec hd h
  have hfactors := keepsFactors_setTrie d₁ id trie
  refine ⟨hfit, ⟨trie, hg.trie?_setTrie hm trie, fun d' hk => hreads d' (hfactors.trans hk),
    hrep.of_keeps hfactors⟩, fun hl i t ht => ?_⟩
  rcases trie?_setTrie_cases ht with rfl | ht
  · exact ⟨_, hrep.of_keeps hfactors⟩
  · rcases hg.trie?_cases ht with ht | hr
    · obtain ⟨tails, htails⟩ := hl i t ht
      exact ⟨tails, htails.of_keeps hfit.keepsFactors⟩
    · rw [hr]
      exact ⟨[], not_reads_nil⟩

/-! ### All mediums -/

/-- The trie of a node spells the case. -/
def Spells (d : Draft) (id : NodeId) (case : List NodeId) : Prop :=
  ∃ trie, d.trie? id = some trie ∧ trie.Spells d.trie? case

/-- The loop behind a node repeats the tail. -/
def Repeats (d : Draft) (id : NodeId) (tail : List NodeId) : Prop :=
  ∃ trie loop place, d.trie? id = some trie ∧ trie.recursion = some loop ∧
    d.trie? loop = some (.loop place loop) ∧ d.Spells place tail

theorem Kept.spells_iff {cases : List (List NodeId)} (h : Kept d cases id) (case : List NodeId) :
    d.Spells id case ↔ Reads (baseOf id cases) case := by
  obtain ⟨trie, ht, hreads, -⟩ := h
  rw [← hreads d (.refl d) case]
  constructor
  · rintro ⟨t, ht', hs⟩
    obtain rfl := Option.some.inj (ht.symm.trans ht')
    exact hs
  · exact fun hs => ⟨trie, ht, hs⟩

theorem Kept.repeats_iff {cases : List (List NodeId)} (h : Kept d cases id) (tail : List NodeId) :
    d.Repeats id tail ↔ Reads (behind id cases) tail := by
  obtain ⟨trie, ht, -, hrep⟩ := h
  cases hr : trie.recursion with
  | none =>
    rw [hr] at hrep
    refine iff_of_false ?_ (hrep tail)
    rintro ⟨t, loop, place, ht', hr', -⟩
    obtain rfl := Option.some.inj (ht.symm.trans ht')
    cases hr.symm.trans hr'
  | some loop =>
    rw [hr] at hrep
    obtain ⟨place, inner, -, hall⟩ := hrep
    obtain ⟨hloop, hplace, -, hreads⟩ := hall d (.refl d)
    rw [← hreads tail]
    constructor
    · rintro ⟨t, loop', place', ht', hr', hloop', inner', hplace', hs⟩
      obtain rfl := Option.some.inj (ht.symm.trans ht')
      obtain rfl := Option.some.inj (hr.symm.trans hr')
      have hcases := congrArg Trie.cases (Option.some.inj (hloop.symm.trans hloop'))
      obtain rfl : place = place' := (Prod.mk.inj (List.cons.inj hcases).1).1
      obtain rfl := Option.some.inj (hplace.symm.trans hplace')
      exact hs
    · exact fun hs => ⟨trie, loop, place, ht, hr, hloop, inner, hplace, hs⟩

/-- A draft with kept recursion beside the one before factorization: the tries spell what is read
for the cases of each node, and the loops behind them what is read for the tails. -/
structure Keeping (d d' : Draft) : Prop where
  sound' : d'.Sound
  keeps : d.Keeps d'
  key (i : NodeId) : d'.isTokenKey i → i < d.nodes.size
  medium (i : NodeId) : (d'.shape? i).any (·.isMedium) → i < d.nodes.size
  cases (i : NodeId) : i < d.nodes.size → d'.casesOf i = d.casesOf i
  looped : d'.Looped
  spells (i : NodeId) (case : List NodeId) : i < d.nodes.size →
    (d'.Spells i case ↔ Reads (baseOf i (d.casesOf i)) case)
  repeats (i : NodeId) (tail : List NodeId) : i < d.nodes.size →
    (d'.Repeats i tail ↔ Reads (behind i (d.casesOf i)) tail)

theorem keeping_of_factorizeAll (hd : d.Sound) (hu : d.Unfactorized) {options : GrammarOptions}
    (ho : options.removeLeftRecursion = false) (h : d.factorizeAll options = .ok d') :
    Keeping d d' := by
  unfold factorizeAll at h
  rw [ho, if_neg Bool.false_ne_true] at h
  have hall : AllEquipped Kept Looped d.mediumIds d d' :=
    allEquipped_of_foldlM Kept Looped Kept.of_keeps equips_factorizeKeeping hd
      (fun id hm => (mem_mediumIds hd).1 hm) h
  have hkept {i : NodeId} (hi : i < d.nodes.size) (hm : (d.shape? i).any (·.isMedium)) :
      Kept d' (d.casesOf i) i := hall.done i hi (.inl ((mem_mediumIds hd).2 hm))
  -- a node that is no medium has neither cases nor a trie
  have hnone {i : NodeId} (hi : i < d.nodes.size)
      (hm : (d.shape? i).any (·.isMedium) = false) : d'.trie? i = none := by
    rw [hall.other i hi (fun hmem => by
      rw [(mem_mediumIds hd).1 hmem] at hm
      cases hm)]
    cases ht : d.trie? i with
    | none => rfl
    | some trie =>
      rw [hu.medium i trie ht] at hm
      cases hm
  refine ⟨hall.sound, hall.keeps, hall.key, hall.medium, hall.cases, hall.good hu.loopless.looped,
    fun i case hi => ?_, fun i tail hi => ?_⟩
  · cases hm : (d.shape? i).any (·.isMedium) with
    | true => exact (hkept hi hm).spells_iff case
    | false =>
      rw [casesOf_eq_nil_of_not_medium hm]
      refine iff_of_false ?_ (not_reads_nil case)
      rintro ⟨trie, ht, -⟩
      cases (hnone hi hm).symm.trans ht
  · cases hm : (d.shape? i).any (·.isMedium) with
    | true => exact (hkept hi hm).repeats_iff tail
    | false =>
      rw [casesOf_eq_nil_of_not_medium hm]
      refine iff_of_false ?_ (not_reads_nil tail)
      rintro ⟨trie, loop, place, ht, -⟩
      cases (hnone hi hm).symm.trans ht

end Draft

end Syntagma
