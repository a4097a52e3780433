import Syntagma.Proofs.Grammar.Entry
import Syntagma.Proofs.Grammar.Stages
import Syntagma.Proofs.Grammar.Unrolling

/-! Factorization of all mediums. In the end the trie of each medium spells what is read for its
cases, and no trie has a loop. -/

namespace Syntagma.Draft

variable {d d₁ d' : Draft} {id : NodeId}

/-- The trie of a node spells what is read for the cases, however the draft goes on. -/
def Merged (d : Draft) (cases : List (List NodeId)) (id : NodeId) : Prop :=
  ∃ trie, d.trie? id = some trie ∧
    ∀ d', d.KeepsFactors d' → ∀ w, trie.Spells d'.trie? w ↔ Reads cases w

/-- No trie repeats a left-recursive tail. -/
def Loopless (d : Draft) : Prop := ∀ id trie, d.trie? id = some trie → trie.recursion = none

theorem keepsFactors_setTrie (d : Draft) (id : NodeId) (trie : Trie) :
    d.KeepsFactors (d.setTrie id trie) := by
  intro i n hn hf
  rw [shape?_setTrie, hn]
  split
  · obtain ⟨_, _, _, kind⟩ := n
    cases kind with
    | factor t => rfl
    | _ => exact nomatch hf
  · rfl

theorem Planted.isTokenKey (h : Planted d d') {i : NodeId} (hi : d'.isTokenKey i) :
    i < d.nodes.size := by
  refine Nat.lt_of_not_le (fun hle => ?_)
  obtain ⟨n, hn⟩ := exists_shape? (lt_size_of_isTokenKey hi)
  obtain ⟨trie, hk, -⟩ := h.new i n hle hn
  rw [Draft.isTokenKey, hn, Option.any_some, Node.isTokenKey, Node.isTerminal, Node.terminal?,
    Node.isDefinedToken, Node.tokenTag?, Node.medium?, hk] at hi
  exact Bool.false_ne_true hi

/-- New nodes are no mediums. -/
theorem Planted.isMedium (h : Planted d d') {i : NodeId} (hi : (d'.shape? i).any (·.isMedium)) :
    i < d.nodes.size := by
  refine Nat.lt_of_not_le (fun hle => ?_)
  obtain ⟨n, hn⟩ := exists_shape? (lt_size_of_isMedium hi)
  obtain ⟨trie, hk, -⟩ := h.new i n hle hn
  rw [hn, Option.any_some, Node.isMedium, Node.medium?, hk] at hi
  exact Bool.false_ne_true hi

/-- The tries of new factors have no loop. -/
theorem Planted.trie?_cases (h : Planted d d') {i : NodeId} {t : Trie}
    (ht : d'.trie? i = some t) : d.trie? i = some t ∨ t.recursion = none := by
  obtain ⟨n, hn, htn⟩ := Option.bind_eq_some_iff.1 ht
  rcases Nat.lt_or_ge i d.nodes.size with hi | hi
  · exact .inl (by rw [trie?, h.back hi hn, Option.bind_some, htn])
  · obtain ⟨t', hk, hr, -⟩ := h.new i n hi hn
    rw [Node.trie?, hk, Option.some.injEq] at htn
    exact .inr (htn ▸ hr)

namespace Refits

theorem key (h : Refits id d d') {i : NodeId} (hi : d'.isTokenKey i) : i < d.nodes.size := by
  obtain ⟨d₁, trie, hg, -, rfl⟩ := h
  have hi₁ := lt_size_of_isTokenKey hi
  rw [size_setTrie] at hi₁
  rw [(Keeps.setTrie d₁ id trie).isTokenKey hi₁] at hi
  exact hg.isTokenKey hi

theorem medium (h : Refits id d d') {i : NodeId} (hi : (d'.shape? i).any (·.isMedium)) :
    i < d.nodes.size := by
  obtain ⟨d₁, trie, hg, -, rfl⟩ := h
  have hi₁ := lt_size_of_isMedium hi
  rw [size_setTrie] at hi₁
  rw [(Keeps.setTrie d₁ id trie).isMedium hi₁] at hi
  exact hg.isMedium hi

theorem keepsFactors (h : Refits id d d') : d.KeepsFactors d' := by
  obtain ⟨d₁, trie, hg, -, rfl⟩ := h
  exact hg.grows.keepsFactors.trans (keepsFactors_setTrie d₁ id trie)

theorem trie?_of_ne (h : Refits id d d') {i : NodeId} (hi : i < d.nodes.size) (hne : i ≠ id) :
    d'.trie? i = d.trie? i := by
  obtain ⟨d₁, trie, hg, -, rfl⟩ := h
  obtain ⟨m, hm⟩ := exists_shape? hi
  rw [trie?_setTrie_of_ne trie hne, trie?, trie?, hg.grows i m hm, hm]

theorem casesOf (h : Refits id d d') {i : NodeId} (hi : i < d.nodes.size) :
    d'.casesOf i = d.casesOf i := by
  obtain ⟨d₁, trie, hg, -, rfl⟩ := h
  rw [casesOf_setTrie, hg.grows.casesOf hi]

end Refits

theorem Planted.trie?_setTrie (h : Planted d d₁) (hm : (d.shape? id).any (·.isMedium))
    (trie : Trie) : (d₁.setTrie id trie).trie? id = some trie := by
  obtain ⟨n, hn⟩ := exists_shape? (lt_size_of_isMedium hm)
  rw [hn, Option.any_some] at hm
  exact trie?_setTrie_self (h.grows id n hn) hm trie

/-! ### One medium after another -/

/-- One medium gets a trie for its cases. What is `Done` for a medium is said of its trie and the
factors behind it; what is `Good` is said of all tries. -/
structure Equips (Done : Draft → List (List NodeId) → NodeId → Prop) (Good : Draft → Prop)
    (id : NodeId) (d d' : Draft) : Prop where
  refits : Refits id d d'
  done : Done d' (d.casesOf id) id
  good : Good d → Good d'

/-- All mediums on a list have got a trie for their cases. -/
structure AllEquipped (Done : Draft → List (List NodeId) → NodeId → Prop) (Good : Draft → Prop)
    (ids : List NodeId) (d d' : Draft) : Prop where
  keeps : d.Keeps d'
  sound : d'.Sound
  key (i : NodeId) : d'.isTokenKey i → i < d.nodes.size
  medium (i : NodeId) : (d'.shape? i).any (·.isMedium) → i < d.nodes.size
  cases (i : NodeId) : i < d.nodes.size → d'.casesOf i = d.casesOf i
  done (i : NodeId) : i < d.nodes.size → (i ∈ ids ∨ Done d (d.casesOf i) i) →
    Done d' (d.casesOf i) i
  other (i : NodeId) : i < d.nodes.size → i ∉ ids → d'.trie? i = d.trie? i
  good : Good d → Good d'

/-- A step for each medium does it for all of them, if what is done for one stays so as long as its
trie and the factors do. -/
theorem allEquipped_of_foldlM (Done : Draft → List (List NodeId) → NodeId → Prop)
    (Good : Draft → Prop) {step : Draft → NodeId → Except Fault Draft}
    (hstable : ∀ {d d' : Draft} {cases : List (List NodeId)} {i : NodeId}, d.KeepsFactors d' →
      d'.trie? i = d.trie? i → Done d cases i → Done d' cases i)
    (hstep : ∀ {d d' : Draft} {id : NodeId}, d.Sound → (d.shape? id).any (·.isMedium) →
      step d id = .ok d' → Equips Done Good id d d')
    {ids : List NodeId} (hd : d.Sound) (hids : ∀ id ∈ ids, (d.shape? id).any (·.isMedium))
    (h : ids.foldlM step d = .ok d') : AllEquipped Done Good ids d d' := by
  induction ids generalizing d with
  | nil =>
    cases h
    refine ⟨.refl _, hd, fun _ => lt_size_of_isTokenKey, fun _ => lt_size_of_isMedium,
      fun _ _ => rfl, fun i _ h => ?_, fun _ _ _ => rfl, id⟩
    exact h.resolve_left List.not_mem_nil
  | cons id ids ih =>
    rw [List.foldlM_cons] at h
    obtain ⟨d₁, hfirst, h⟩ := Fault.bind_eq_ok_iff.1 h
    have he := hstep hd (hids id List.mem_cons_self) hfirst
    have hkeeps := he.refits.keeps
    have hlt (i : NodeId) (hi : i < d.nodes.size) : i < d₁.nodes.size :=
      Nat.lt_of_lt_of_le hi hkeeps.size_le
    have hall := ih (hd.of_refits he.refits) (fun x hx => by
      have hm := hids x (List.mem_cons_of_mem id hx)
      rwa [hkeeps.isMedium (lt_size_of_isMedium hm)]) h
    refine ⟨hkeeps.trans hall.keeps, hall.sound, fun i hi => ?_, fun i hi => ?_, fun i hi => ?_,
      fun i hi hor => ?_, fun i hi hni => ?_, fun hg => hall.good (he.good hg)⟩
    · have hi₁ := hall.key i hi
      rw [hall.keeps.isTokenKey hi₁] at hi
      exact he.refits.key hi
    · have hi₁ := hall.medium i hi
      rw [hall.keeps.isMedium hi₁] at hi
      exact he.refits.medium hi
    · rw [hall.cases i (hlt i hi), he.refits.casesOf hi]
    · rw [← he.refits.casesOf hi]
      refine hall.done i (hlt i hi) ?_
      rw [he.refits.casesOf hi]
      by_cases hne : i = id
      · subst hne
        exact .inr he.done
      · refine (hor.imp_left (fun hm => (List.mem_cons.1 hm).resolve_left hne)).imp_right ?_
        exact hstable he.refits.keepsFactors (he.refits.trie?_of_ne hi hne)
    · rw [List.mem_cons, not_or] at hni
      rw [hall.other i (hlt i hi) hni.2, he.refits.trie?_of_ne hi hni.1]

/-! ### Cases taken as they are -/

theorem Merged.of_keeps {cases : List (List NodeId)} (hk : d.KeepsFactors d')
    (ht : d'.trie? id = d.trie? id) (h : Merged d cases id) : Merged d' cases id := by
  obtain ⟨trie, hid, hreads⟩ := h
  exact ⟨trie, ht.trans hid, fun d'' hk' => hreads d'' (hk.trans hk')⟩

theorem equips_factorizeMedium (hd : d.Sound) (hm : (d.shape? id).any (·.isMedium)) :
    Equips Merged Loopless id d (d.factorizeMedium id) := by
  have hfit := refits_factorizeMedium hd id
  unfold factorizeMedium at hfit ⊢
  rcases hp : d.factorize (d.nameOf id) (d.casesOf id) with ⟨trie, d₁⟩
  obtain ⟨hg, -, hloop, hreads⟩ := factorize_spec (hd.cases_lt id) hp
  rw [hp] at hfit
  have hfactors := keepsFactors_setTrie d₁ id trie
  refine ⟨hfit, ⟨trie, hg.trie?_setTrie hm trie, fun d' hk => hreads d' (hfactors.trans hk)⟩,
    fun hl i t ht => ?_⟩
  rcases trie?_setTrie_cases ht with rfl | ht
  · exact hloop
  · exact (hg.trie?_cases ht).elim (hl i t) (fun hr => hr)

theorem allEquipped_factorizeMediums {ids : List NodeId} (hd : d.Sound)
    (hids : ∀ id ∈ ids, (d.shape? id).any (·.isMedium)) :
    AllEquipped Merged Loopless ids d (ids.foldl factorizeMedium d) := by
  have hfold : ids.foldlM (fun d id => Except.ok (factorizeMedium d id)) d =
      (.ok (ids.foldl factorizeMedium d) : Except Fault Draft) := List.foldlM_pure
  refine allEquipped_of_foldlM Merged Loopless Merged.of_keeps (fun hd hm h => ?_) hd hids hfold
  cases h
  exact equips_factorizeMedium hd hm

theorem mem_mediumIds (hd : d.Sound) : id ∈ d.mediumIds ↔ (d.shape? id).any (·.isMedium) := by
  rw [mediumIds, List.mem_map]
  constructor
  · rintro ⟨n, hn, rfl⟩
    obtain ⟨hmem, hm⟩ := List.mem_filter.1 hn
    obtain ⟨i, hi⟩ := List.mem_iff_getElem?.1 hmem
    have hs : d.shape? i = some n.shape := by
      rw [shape?, ← Array.getElem?_toList, hi, Option.map_some]
    have hid : n.id = i := (Node.shape_id n).symm.trans (hd.id_eq i _ hs)
    rw [hid, hs, Option.any_some, Node.isMedium_shape, hm]
  · intro hm
    cases hs : d.nodes[id]? with
    | none => simp [shape?, hs] at hm
    | some n =>
      have hshape : d.shape? id = some n.shape := by rw [shape?, hs, Option.map_some]
      refine ⟨n, List.mem_filter.2 ⟨?_, ?_⟩, ?_⟩
      · exact List.mem_iff_getElem?.2 ⟨id, by rw [Array.getElem?_toList, hs]⟩
      · rwa [hshape, Option.any_some, Node.isMedium_shape] at hm
      · exact (Node.shape_id n).symm.trans (hd.id_eq id _ hshape)

/-! ### Both stages -/

/-- A draft before factorization: tries stand on mediums only, and are empty. -/
structure Unfactorized (d : Draft) : Prop where
  medium (id : NodeId) (trie : Trie) : d.trie? id = some trie → (d.shape? id).any (·.isMedium)
  trie_empty (id : NodeId) (trie : Trie) : d.trie? id = some trie → trie = .empty

theorem Unfactorized.loopless (hu : d.Unfactorized) : d.Loopless :=
  fun id trie ht => hu.trie_empty id trie ht ▸ rfl

theorem Proper.unfactorized (hd : d.Proper) : d.Unfactorized where
  medium id trie ht := by
    obtain ⟨n, hn, ht⟩ := Option.bind_eq_some_iff.1 ht
    have hf := hd.not_factor id n hn
    obtain ⟨_, _, _, kind⟩ := n
    rw [hn]
    cases kind with
    | medium data => rfl
    | factor trie => exact nomatch hf
    | terminal data => exact nomatch ht
    | symbolClass data => exact nomatch ht
  trie_empty := hd.trie_empty

theorem Unfactorized.of_removal (hu : d.Unfactorized) (h : d.removeFromMedium id = .ok d') :
    d'.Unfactorized := by
  have hkeeps := keeps_removeFromMedium h
  rcases removeFromMedium_cases h with ⟨-, rfl⟩ | ⟨-, -, d₁, ht, rfl⟩
  · exact hu
  have hcase {i : NodeId} {t : Trie}
      (hi : (d₁.setCases id (unrolledCases (d.baseCases id) d.nodes.size)).trie? i = some t) :
      d.trie? i = some t ∨ (d₁.shape? i).any (·.isMedium) ∧ t = .empty := by
    rw [trie?_setCases] at hi
    obtain ⟨m, hm, hmt⟩ := Option.bind_eq_some_iff.1 hi
    rcases ht.shape?_cases hm with hm' | ⟨k, -, -, name, rfl⟩
    · exact .inl (by rw [trie?, hm', Option.bind_some, hmt])
    · cases hmt
      exact .inr ⟨by rw [hm]; rfl, rfl⟩
  refine ⟨fun i t hi => ?_, fun i t hi => ?_⟩
  · rcases hcase hi with hi | ⟨hm, -⟩
    · have hm := hu.medium i t hi
      rwa [hkeeps.isMedium (lt_size_of_isMedium hm)]
    · rwa [(Keeps.setCases d₁ id _).isMedium (lt_size_of_isMedium hm)]
  · rcases hcase hi with hi | ⟨-, hempty⟩
    · exact hu.trie_empty i t hi
    · exact hempty

theorem Unfactorized.of_removals (hu : d.Unfactorized) {ids : List NodeId}
    (h : d.removeLeftRecursion ids = .ok d') : d'.Unfactorized :=
  Fault.foldlM_keeps (fun _ _ _ _ hu hk => hu.of_removal hk) hu h

theorem casesOf_eq_nil_of_not_medium (h : (d.shape? id).any (·.isMedium) = false) :
    d.casesOf id = [] := by
  refine List.eq_nil_iff_forall_not_mem.2 (fun case hc => ?_)
  obtain ⟨n, hn⟩ := exists_shape? (lt_size_of_mem_casesOf hc)
  rw [hn, Option.any_some, isMedium_of_mem_casesOf hc hn] at h
  cases h

section Unrolled

variable (hd : d.Sound) (hun : AllUnrolled d.nodes.size d.mediumIds d d₁)

include hd hun

/-- No node of the earlier draft is left-recursive any more. -/
theorem recursiveCases_unrolled {i : NodeId} (hi : i < d.nodes.size) :
    d₁.recursiveCases i = [] := by
  cases hm : (d.shape? i).any (·.isMedium) with
  | true => exact hun.done i ((mem_mediumIds hd).2 hm)
  | false =>
    have hnil : d₁.casesOf i = [] :=
      casesOf_eq_nil_of_not_medium (by rw [hun.keeps.isMedium hi, hm])
    rw [recursiveCases_eq_nil_iff, hnil]
    exact fun _ hc => absurd hc List.not_mem_nil

/-- Merging the cases of any node of the unrolled draft reads what the node reads. -/
theorem rule_iff_reads (i : NodeId) (case : List NodeId) :
    d₁.reading.rule i case ↔ Reads (d₁.casesOf i) case := by
  rcases Nat.lt_or_ge i d.nodes.size with hi | hi
  · have hdone := recursiveCases_unrolled hd hun hi
    exact readsAs_iff_of_not_recursive (recursiveCases_eq_nil_iff.1 hdone)
  · rcases hun.new i hi with hc | hc
    · exact (readsAs_iff_of_unambiguous hc).trans (hc case).symm
    · simp only [reading, hc]
      exact readsAs_iff_of_not_recursive (fun _ ho => absurd ho List.not_mem_nil)

end Unrolled

/-- Once all mediums are factorized, the tries of the old nodes spell what is read for them. -/
theorem AllEquipped.reads_iff_spells (h : AllEquipped Merged Loopless d.mediumIds d d')
    (hd : d.Sound) (hu : d.Unfactorized) {i : NodeId} (hi : i < d.nodes.size) (case : List NodeId) :
    Reads (d.casesOf i) case ↔
      ∃ trie, d'.trie? i = some trie ∧ trie.Spells d'.trie? case := by
  cases hm : (d.shape? i).any (·.isMedium) with
  | true =>
    obtain ⟨trie, ht, hs⟩ := h.done i hi (.inl ((mem_mediumIds hd).2 hm))
    rw [← hs _ (.refl _) case]
    constructor
    · exact fun hc => ⟨trie, ht, hc⟩
    · rintro ⟨t, ht', hc⟩
      obtain rfl := Option.some.inj (ht.symm.trans ht')
      exact hc
  | false =>
    rw [casesOf_eq_nil_of_not_medium hm]
    refine iff_of_false (not_reads_nil case) ?_
    rintro ⟨trie, ht, -⟩
    have hni : i ∉ d.mediumIds := fun hi => by
      rw [(mem_mediumIds hd).1 hi] at hm
      cases hm
    rw [h.other i hi hni] at ht
    rw [hu.medium i trie ht] at hm
    cases hm

/-- A compiled draft beside the one before factorization: left recursion was unrolled in between,
and then every trie spells what is read for its node. -/
structure Realizes (d d₁ d' : Draft) : Prop where
  sound : d₁.Sound
  sound' : d'.Sound
  keeps : d.Keeps d₁
  keeps' : d₁.Keeps d'
  key (i : NodeId) : d'.isTokenKey i → i < d.nodes.size
  medium (i : NodeId) : (d'.shape? i).any (·.isMedium) → i < d₁.nodes.size
  cases (i : NodeId) : i < d₁.nodes.size → d'.casesOf i = d₁.casesOf i
  reads (i : NodeId) (case : List NodeId) : i < d₁.nodes.size → (Reads (d₁.casesOf i) case ↔
    ∃ trie, d'.trie? i = some trie ∧ trie.Spells d'.trie? case)
  loopless : d'.Loopless
  done (i : NodeId) : i < d.nodes.size → d₁.recursiveCases i = []
  enters (i : NodeId) (w : List NodeId) : i < d.nodes.size →
    (d₁.reading.Enters i w ↔ d.reading.Enters i w)
  spells (i : NodeId) (case : List NodeId) : i < d₁.nodes.size → (d₁.reading.rule i case ↔
    ∃ trie, d'.trie? i = some trie ∧ trie.Spells d'.trie? case)

theorem exists_realizes (hd : d.Sound) (hu : d.Unfactorized) {options : GrammarOptions}
    (ho : options.removeLeftRecursion) (h : d.factorizeAll options = .ok d') :
    ∃ d₁, Realizes d d₁ d' := by
  unfold factorizeAll at h
  rw [if_pos ho] at h
  obtain ⟨d₁, hr, h⟩ := Fault.bind_eq_ok_iff.1 h
  cases h
  have hids (id : NodeId) (hm : id ∈ d.mediumIds) : id < d.nodes.size :=
    lt_size_of_isMedium ((mem_mediumIds hd).1 hm)
  have hun : AllUnrolled d.nodes.size d.mediumIds d d₁ :=
    allUnrolled_of_removeLeftRecursion hd hids (Nat.le_refl _)
      (fun _ hi => .inr (casesOf_eq_nil_of_le hi)) hr
  have hu₁ := hu.of_removals hr
  have hfac := allEquipped_factorizeMediums hun.sound
    (fun id hm => (mem_mediumIds hun.sound).1 hm)
  have hreads (i : NodeId) (case : List NodeId) (hi : i < d₁.nodes.size) :=
    hfac.reads_iff_spells hun.sound hu₁ hi case
  refine ⟨d₁, hun.sound, hfac.sound, hun.keeps, hfac.keeps, fun i hi => ?_, hfac.medium,
    hfac.cases, hreads, hfac.good hu₁.loopless, fun i hi => recursiveCases_unrolled hd hun hi,
    hun.enters, fun i case hi => (rule_iff_reads hd hun i case).trans (hreads i case hi)⟩
  have hi₁ := hfac.key i hi
  rw [hfac.keeps.isTokenKey hi₁] at hi
  exact hun.key i hi

end Syntagma.Draft
