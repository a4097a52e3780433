import Syntagma.Proofs.Analysis.LoopLanguage
import Syntagma.Proofs.Analysis.SpelledLanguage
import Syntagma.Proofs.Grammar.Compilation

/-! No branch of a trie is a dead end. An inner tree of merged alternatives is made for cases of
which one is not empty, so whatever head a trie has, something is spelled behind it, and this stays
so from the planting of the trees to the published grammar. -/

namespace Syntagma

namespace Branching

/-- Each inner tree spells something, here and in every inner tree. -/
inductive Live : Branching → Prop where
  | mk {branches : List (NodeId × Option Branching)} {ends : Bool}
    (spells : ∀ h b, (h, some b) ∈ branches → ∃ rest, b.Spells rest)
    (inner : ∀ h b, (h, some b) ∈ branches → Live b) : Live (.mk branches ends)

theorem live_ofCasesWithin {depth : Nat} {cases : List (List NodeId)}
    (hlen : ∀ case ∈ cases, case.length ≤ depth) {b : Branching}
    (hb : ofCasesWithin depth cases = some b) : b.Live := by
  induction depth generalizing cases b with
  | zero =>
    unfold ofCasesWithin at hb
    split at hb
    · cases hb
      exact .mk (fun _ _ h => absurd h List.not_mem_nil) (fun _ _ h => absurd h List.not_mem_nil)
    · cases hb
  | succ depth ih =>
    unfold ofCasesWithin at hb
    split at hb
    · cases hb
    cases hb
    have hinner {head : NodeId} {inner : Branching}
        (he : (head, some inner) ∈ (heads cases).map
          (fun h => (h, ofCasesWithin depth (tailsOf h cases)))) :
        head ∈ heads cases ∧ ofCasesWithin depth (tailsOf head cases) = some inner := by
      obtain ⟨_, hh, heq⟩ := List.mem_map.1 he
      obtain ⟨rfl, hw⟩ := Prod.mk.inj heq
      exact ⟨hh, hw⟩
    refine .mk (fun head inner he => ?_) (fun head inner he => ?_)
    · obtain ⟨hh, hw⟩ := hinner he
      obtain ⟨rest, hr⟩ := List.exists_mem_of_ne_nil _ (tailsOf_ne_nil hh)
      exact ⟨rest, (spells_ofCasesWithin (length_tailsOf_le hlen) hw rest).2 (.inl hr)⟩
    · obtain ⟨-, hw⟩ := hinner he
      exact ih (length_tailsOf_le hlen) hw

theorem live_ofCases {cases : List (List NodeId)} {b : Branching} (hb : ofCases cases = some b) :
    b.Live :=
  live_ofCasesWithin length_le_longest hb

end Branching

namespace Draft

variable {d d' : Draft} {id : NodeId} {trie : Trie} {owner : String}

/-- Behind each head something is spelled, here and in every draft with the same factors. -/
def Open (d : Draft) (trie : Trie) : Prop :=
  ∀ e ∈ trie.cases, ∀ factor ∈ e.2, ∃ inner rest, ∀ d', d.KeepsFactors d' →
    d'.trie? factor = some inner ∧ inner.Spells d'.trie? rest

/-- No trie of the draft has a dead end. -/
def Passable (d : Draft) : Prop := ∀ id trie, d.trie? id = some trie → d.Open trie

theorem Open.of_keeps (h : d.Open trie) (hk : d.KeepsFactors d') : d'.Open trie := by
  intro e he factor hf
  obtain ⟨inner, rest, hall⟩ := h e he factor hf
  exact ⟨inner, rest, fun d'' hk' => hall d'' (hk.trans hk')⟩

theorem open_empty (d : Draft) : d.Open .empty := fun _ he => absurd he List.not_mem_nil

/-! ### Planting -/

theorem Passable.pushFactor (h : d.Passable) (ho : d.Open trie) :
    (d.pushFactor owner trie).Passable := by
  intro i t ht
  have hkeeps : d.KeepsFactors (d.pushFactor owner trie) := (grows_push _ _ _ _).keepsFactors
  rw [trie?, Draft.pushFactor, shape?_push] at ht
  split at ht
  · cases ht
    exact ho.of_keeps hkeeps
  · exact (h i t ht).of_keeps hkeeps

theorem Mirrors.isOpen {base : Nat} {b : Branching} (h : d.Mirrors base trie b)
    (hs : ∀ head inner, (head, some inner) ∈ b.branches → ∃ rest, inner.Spells rest) :
    d.Open trie := by
  have hbranches := h.branches
  intro e he factor hf
  generalize trie.cases = cases, b.branches = branches at hbranches he hs
  induction hbranches with
  | nil => exact absurd he List.not_mem_nil
  | @cons e' b cases branches hfirst _ ih =>
    rcases List.mem_cons.1 he with rfl | he
    · obtain ⟨head, next⟩ := e
      obtain ⟨head', next'⟩ := b
      obtain ⟨-, hstands⟩ : head = head' ∧ d.Stands base next next' := hfirst
      cases hf
      cases next' with
      | none => exact hstands.elim
      | some b =>
        obtain ⟨-, inner, hinner, hrep⟩ := hstands
        obtain ⟨rest, hr⟩ := hs head' b List.mem_cons_self
        exact ⟨inner, rest, fun d' hk => ⟨hinner d' hk, (hrep d' hk rest).2 hr⟩⟩
    · exact ih he (fun h b hb => hs h b (List.mem_cons_of_mem _ hb))

mutual

theorem passable_plant {b : Branching} {n : Nat} (hb : b.Below n) (hl : b.Live) {d d' : Draft}
    {trie : Trie} (hn : n ≤ d.nodes.size) (hd : d.Passable) (h : plant owner b d = (trie, d')) :
    d'.Passable ∧ d'.Open trie := by
  obtain ⟨branches, ends⟩ := b
  obtain ⟨-, -, hinner⟩ := hb
  obtain ⟨hspells, hlive⟩ := hl
  unfold plant at h
  rcases hp : plantBranches owner branches d with ⟨cases, d₁⟩
  rw [hp] at h
  cases h
  exact ⟨passable_plantBranches hinner hspells hlive hn hd hp,
    (made_plantBranches ends hp).mirrors.isOpen hspells⟩

theorem passable_plantBranches {branches : List (NodeId × Option Branching)} {n : Nat}
    (hb : ∀ h b, (h, some b) ∈ branches → b.Below n)
    (hs : ∀ h b, (h, some b) ∈ branches → ∃ rest, b.Spells rest)
    (hl : ∀ h b, (h, some b) ∈ branches → b.Live) {d d' : Draft}
    {cases : List (NodeId × Option NodeId)} (hn : n ≤ d.nodes.size) (hd : d.Passable)
    (h : plantBranches owner branches d = (cases, d')) : d'.Passable := by
  match branches with
  | [] =>
    cases h
    exact hd
  | (head, none) :: rest =>
    unfold plantBranches at h
    rcases hp : plantBranches owner rest d with ⟨more, d₁⟩
    rw [hp] at h
    cases h
    exact passable_plantBranches (fun h b hm => hb h b (List.mem_cons_of_mem _ hm))
      (fun h b hm => hs h b (List.mem_cons_of_mem _ hm))
      (fun h b hm => hl h b (List.mem_cons_of_mem _ hm)) hn hd hp
  | (head, some b) :: rest =>
    unfold plantBranches at h
    rcases hp : plant owner b d with ⟨trie, d₁⟩
    rcases hq : plantBranches owner rest (d₁.pushFactor owner trie) with ⟨more, d₂⟩
    simp only [hp, hq] at h
    cases h
    have hbelow := hb head b List.mem_cons_self
    obtain ⟨hd₁, ho⟩ := passable_plant hbelow (hl head b List.mem_cons_self) hn hd hp
    obtain ⟨hg, -⟩ := plant_spec hbelow hn hp
    have hsize : d.nodes.size ≤ (d₁.pushFactor owner trie).nodes.size :=
      Nat.le_trans hg.grows.size_le (grows_push _ _ _ _).size_le
    exact passable_plantBranches (fun h b hm => hb h b (List.mem_cons_of_mem _ hm))
      (fun h b hm => hs h b (List.mem_cons_of_mem _ hm))
      (fun h b hm => hl h b (List.mem_cons_of_mem _ hm)) (Nat.le_trans hn hsize)
      (hd₁.pushFactor ho) hq

end

theorem passable_factorize {cases : List (List NodeId)}
    (hc : ∀ case ∈ cases, ∀ x ∈ case, x < d.nodes.size) (hd : d.Passable)
    (h : d.factorize owner cases = (trie, d')) : d'.Passable ∧ d'.Open trie := by
  unfold factorize at h
  split at h
  next b hb =>
    exact passable_plant (Branching.below_ofCases hc hb) (Branching.live_ofCases hb) (Nat.le_refl _)
      hd h
  next =>
    cases h
    exact ⟨hd, open_empty d⟩

theorem passable_plantLoop {tails : List (List NodeId)} {loop : Option NodeId}
    (hc : ∀ tail ∈ tails, ∀ x ∈ tail, x < d.nodes.size) (hd : d.Passable)
    (h : d.plantLoop owner tails = (loop, d')) : d'.Passable := by
  unfold plantLoop at h
  split at h
  next b hb =>
    rcases hp : plant owner b d with ⟨trie, d₁⟩
    simp only [hp] at h
    cases h
    obtain ⟨hd₁, ho⟩ := passable_plant (Branching.below_ofCases hc hb) (Branching.live_ofCases hb)
      (Nat.le_refl _) hd hp
    have hd₂ : (d₁.pushFactor owner trie).Passable := hd₁.pushFactor ho
    have hkeeps : (d₁.pushFactor owner trie).KeepsFactors
        ((d₁.pushFactor owner trie).pushFactor owner
          ⟨[(d₁.nextId, some (d₁.pushFactor owner trie).nextId)], true, none⟩) :=
      (grows_push _ _ _ _).keepsFactors
    intro i t ht
    rw [trie?, Draft.pushFactor, shape?_push] at ht
    split at ht
    · -- behind its tails the loop comes back to itself, where it may end
      cases ht
      intro e he factor hf
      obtain rfl := List.mem_singleton.1 he
      cases hf
      exact ⟨_, [], fun d'' hk => ⟨trie?_of_keepsFactors hk, rfl⟩⟩
    · exact (hd₂ i t ht).of_keeps hkeeps
  next =>
    cases h
    exact hd

/-! ### Whole drafts -/

theorem Passable.setTrie (hd : d.Passable) (ho : d.Open trie) : (d.setTrie id trie).Passable := by
  intro i t ht
  rcases trie?_setTrie_cases ht with rfl | ht
  · exact ho.of_keeps (keepsFactors_setTrie d id _)
  · exact (hd i t ht).of_keeps (keepsFactors_setTrie d id trie)

theorem Passable.factorizeMedium (hd : d.Passable) (hs : d.Sound) (id : NodeId) :
    (d.factorizeMedium id).Passable := by
  unfold Draft.factorizeMedium
  rcases hp : d.factorize (d.nameOf id) (d.casesOf id) with ⟨trie, d₁⟩
  obtain ⟨hd₁, ho⟩ := passable_factorize (hs.cases_lt id) hd hp
  exact hd₁.setTrie ho

theorem Passable.factorizeKeeping (hd : d.Passable) (hs : d.Sound)
    (h : d.factorizeKeeping id = .ok d') : d'.Passable := by
  have hbase : ∀ case ∈ d.baseCases id, ∀ x ∈ case, x < d.nodes.size :=
    fun case hc => hs.cases_lt id case (List.mem_of_mem_filter hc)
  unfold Draft.factorizeKeeping at h
  rcases hp : d.factorize (d.nameOf id) (d.baseCases id) with ⟨trie, d₁⟩
  obtain ⟨hg, -⟩ := factorize_spec hbase hp
  obtain ⟨hd₁, ho⟩ := passable_factorize hbase hd hp
  simp only [hp] at h
  split at h
  · cases h
  split at h
  · cases h
    exact hd₁.setTrie ho
  · rcases hq : d₁.plantLoop (d.nameOf id) ((d.recursiveCases id).map (·.drop 1)) with ⟨loop, d₂⟩
    rw [hq] at h
    cases h
    have hlt : ∀ tail ∈ (d.recursiveCases id).map (·.drop 1), ∀ x ∈ tail, x < d₁.nodes.size :=
      fun tail ht x hx => Nat.lt_of_lt_of_le (lt_size_of_mem_tails hs tail ht x hx) hg.grows.size_le
    obtain ⟨hg', -⟩ := plantLoop_spec hlt hq
    have ho' : d₂.Open { trie with recursion := loop } := ho.of_keeps hg'.grows.keepsFactors
    exact (passable_plantLoop hlt hd₁ hq).setTrie ho'

/-- Removing left recursion adds no tries but empty ones. -/
theorem Passable.removeFromMedium (hd : ∀ id trie, d.trie? id = some trie → trie = .empty)
    (h : d.removeFromMedium id = .ok d') : ∀ id trie, d'.trie? id = some trie → trie = .empty := by
  rcases removeFromMedium_cases h with ⟨-, rfl⟩ | ⟨-, -, d₁, ht, rfl⟩
  · exact hd
  intro i t hi
  rw [trie?_setCases] at hi
  obtain ⟨m, hm, hmt⟩ := Option.bind_eq_some_iff.1 hi
  rcases ht.shape?_cases hm with hm' | ⟨k, -, -, name, rfl⟩
  · exact hd i t (by rw [trie?, hm', Option.bind_some, hmt])
  · cases hmt
    rfl

theorem Proper.passable_factorizeAll (hd : d.Proper) {options : GrammarOptions}
    (h : d.factorizeAll options = .ok d') : d'.Passable := by
  have hempty {d : Draft} (hd : ∀ id trie, d.trie? id = some trie → trie = .empty) : d.Passable :=
    fun id trie ht => hd id trie ht ▸ open_empty d
  unfold Draft.factorizeAll at h
  split at h
  · obtain ⟨d₁, hr, h⟩ := Fault.bind_eq_ok_iff.1 h
    cases h
    have hs₁ := (hd.sound.removeLeftRecursion hr).1
    have htries : ∀ id trie, d₁.trie? id = some trie → trie = .empty :=
      Fault.foldlM_keeps (fun _ _ _ _ hd h => Passable.removeFromMedium hd h) hd.trie_empty hr
    have hstep (ids : List NodeId) {d : Draft} (hs : d.Sound) (hp : d.Passable) :
        (ids.foldl Draft.factorizeMedium d).Passable := by
      induction ids generalizing d with
      | nil => exact hp
      | cons id ids ih =>
        exact ih (hs.of_refits (refits_factorizeMedium hs id)) (hp.factorizeMedium hs id)
    exact hstep _ hs₁ (hempty htries)
  · have hstep : ∀ id ∈ d.mediumIds, ∀ d₁ d₂ : Draft, d₁.Sound ∧ d₁.Passable →
        d₁.factorizeKeeping id = .ok d₂ → d₂.Sound ∧ d₂.Passable :=
      fun _ _ _ _ ⟨hs, hp⟩ h => ⟨hs.of_refits (refits_factorizeKeeping hs h), hp.factorizeKeeping hs h⟩
    exact (Fault.foldlM_keeps hstep ⟨hd.sound, hempty hd.trie_empty⟩ h).2

end Draft

/-- Behind each head that has a factor, the factor spells something. -/
def Grammar.Passable (g : Grammar) : Prop :=
  ∀ id trie, g.trie? id = some trie → ∀ e ∈ trie.cases, ∀ factor ∈ e.2, ∃ rest, g.Spells factor rest

/-- No branch of a compiled grammar is a dead end. -/
theorem passable_of_compile {description : GrammarDescription} {options : GrammarOptions}
    {g : Grammar} (h : Grammar.compile description options = .ok g) : g.Passable := by
  obtain ⟨start, entered, classed, factorized, hc⟩ := compiled_of_compile h
  have hpassable := hc.proper.passable_factorizeAll hc.factorize
  have hsound := hc.sound.1
  intro id trie ht e he factor hf
  obtain ⟨i, -, rfl, t, hdt, rfl⟩ := hc.publish.exists_of_trie? ht
  obtain ⟨e', he', rfl⟩ := List.mem_map.1 he
  obtain ⟨factor', hf', rfl⟩ := Option.map_eq_some_iff.1 hf
  obtain ⟨inner, rest, hall⟩ := hpassable i t hdt e' he' factor' hf'
  obtain ⟨hinner, hspells⟩ := hall factorized (.refl _)
  obtain ⟨n, hn, -⟩ := Option.bind_eq_some_iff.1 hinner
  exact ⟨_, (hc.publish.spells_iff hsound (Draft.lt_size_of_shape? hn)).2
    ⟨rest, rfl, inner, hinner, hspells⟩⟩

end Syntagma
