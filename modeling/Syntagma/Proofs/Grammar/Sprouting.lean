import Mathlib.Logic.Relation
import Syntagma.Proofs.Grammar.Factorization
import Syntagma.Proofs.Grammar.SharedPrefixes

/-! What a medium sprouts. Its trie and the factors made for it have only symbols of its cases as
heads, and go on with those factors; a loop alone has a factor for its head. So once all mediums are
factorized, the factors are the last nodes, no case names one, and tries go on with nothing else. -/

namespace Syntagma

/-- The heads of the trie are of one kind, and the nodes it goes on with of another. -/
structure Trie.Over (kind behind : NodeId → Prop) (t : Trie) : Prop where
  heads : ∀ e ∈ t.cases, kind e.1
  continuation : ∀ e ∈ t.cases, ∀ next ∈ e.2, behind next
  recursion : ∀ next ∈ t.recursion, behind next

theorem Trie.Over.imp {kind kind' behind behind' : NodeId → Prop} {t : Trie}
    (h : t.Over kind behind) (hkind : ∀ x, kind x → kind' x) (hbehind : ∀ x, behind x → behind' x) :
    t.Over kind' behind' where
  heads e he := hkind _ (h.heads e he)
  continuation e he next hn := hbehind next (h.continuation e he next hn)
  recursion next hn := hbehind next (h.recursion next hn)

theorem Trie.over_empty (kind behind : NodeId → Prop) : Trie.empty.Over kind behind where
  heads _ h := absurd h List.not_mem_nil
  continuation _ h := absurd h List.not_mem_nil
  recursion _ h := nomatch h

namespace Draft

variable {d d' d'' d₁ : Draft} {id : NodeId} {base n : Nat} {kind : NodeId → Prop} {owner : String}
  {trie : Trie}

theorem Mirrors.over {b : Branching} (h : d.Mirrors base trie b)
    (hheads : ∀ e ∈ b.branches, kind e.1) : trie.Over kind (base ≤ ·) where
  heads e he := by
    obtain ⟨e', he', heq⟩ := List.mem_map.1 (h.heads ▸ List.mem_map_of_mem he)
    exact heq ▸ hheads e' he'
  continuation e he next hn := (h.continuation e he next hn).1
  recursion next hn := by
    rw [h.recursion] at hn
    exact nomatch hn

/-- Between the two drafts nothing was added but factors, with tries of one kind and loops. -/
structure Sprouted (base : Nat) (kind : NodeId → Prop) (d d' : Draft) : Prop where
  grows : d.Grows d'
  new (id : NodeId) (n : Node) : d.nodes.size ≤ id → d'.shape? id = some n →
    ∃ t, n.kind = .factor t ∧ (t.Over kind (base ≤ ·) ∨ ∃ tails, base ≤ tails ∧ t = .loop tails id)

namespace Sprouted

theorem refl (base : Nat) (kind : NodeId → Prop) (d : Draft) : Sprouted base kind d d where
  grows := .refl d
  new _ _ hle hn := absurd (lt_size_of_shape? hn) (Nat.not_lt.2 hle)

theorem back (h : Sprouted base kind d d') {m : Node} (hid : id < d.nodes.size)
    (hm : d'.shape? id = some m) : d.shape? id = some m := by
  obtain ⟨m', hm'⟩ := exists_shape? hid
  rw [h.grows id m' hm'] at hm
  rw [hm', hm]

theorem trans (h : Sprouted base kind d d') (h' : Sprouted base kind d' d'') :
    Sprouted base kind d d'' where
  grows := h.grows.trans h'.grows
  new id m hle hm := by
    rcases Nat.lt_or_ge id d'.nodes.size with hid | hid
    · exact h.new id m hle (h'.back hid hm)
    · exact h'.new id m hid hm

theorem imp {base' : Nat} {kind' : NodeId → Prop} (h : Sprouted base kind d d')
    (hbase : base' ≤ base) (hkind : ∀ x, kind x → kind' x) : Sprouted base' kind' d d' where
  grows := h.grows
  new id m hle hm := by
    obtain ⟨t, hk, hover | ⟨tails, htails, rfl⟩⟩ := h.new id m hle hm
    · exact ⟨t, hk, .inl (hover.imp hkind (fun _ => Nat.le_trans hbase))⟩
    · exact ⟨_, hk, .inr ⟨tails, Nat.le_trans hbase htails, rfl⟩⟩

theorem pushFactor (owner : String) (h : trie.Over kind (base ≤ ·) ∨
      ∃ tails, base ≤ tails ∧ trie = .loop tails d.nodes.size) :
    Sprouted base kind d (d.pushFactor owner trie) where
  grows := grows_push _ _ _ _
  new id m hle hm := by
    have hlt := lt_size_of_shape? hm
    rw [Draft.pushFactor, size_push] at hlt
    obtain rfl : id = d.nodes.size := Nat.le_antisymm (Nat.le_of_lt_succ hlt) hle
    obtain ⟨name, hs⟩ := shape?_pushFactor_self d owner trie
    obtain rfl := Option.some.inj (hs.symm.trans hm)
    exact ⟨trie, rfl, h⟩

end Sprouted

/-- The tree of some cases sprouts factors over their symbols. -/
theorem sprouted_plant {cases : List (List NodeId)} {b : Branching}
    (hb : Branching.ofCases cases = some b) (h : plant owner b d = (trie, d')) :
    Sprouted d.nodes.size (fun x => ∃ case ∈ cases, x ∈ case) d d' ∧
      trie.Over (fun x => ∃ case ∈ cases, x ∈ case) (d.nodes.size ≤ ·) ∧ trie.recursion = none := by
  have hmade := made_plant h
  have hmem {b : Branching} {path : List NodeId}
      (hheads : b.branches.map (·.1) = (nextAfter path cases).eraseDups) :
      ∀ e ∈ b.branches, ∃ case ∈ cases, e.1 ∈ case := fun e he =>
    mem_of_mem_nextAfter (List.mem_eraseDups.1 (hheads ▸ List.mem_map_of_mem he))
  have hroot := (Branching.heads_ofCasesWithin hb).1
  refine ⟨⟨hmade.grows, fun id m hle hm => ?_⟩, hmade.mirrors.over (hmem hroot),
    hmade.mirrors.recursion⟩
  obtain ⟨-, path, t, inner, hk, -, hinner, hmirrors⟩ := hmade.new id m hle hm
  exact ⟨t, hk, .inl (hmirrors.over (hmem (Branching.heads_of_behind hinner hb).1))⟩

theorem sprouted_factorize {cases : List (List NodeId)}
    (h : d.factorize owner cases = (trie, d')) :
    Sprouted d.nodes.size (fun x => ∃ case ∈ cases, x ∈ case) d d' ∧
      trie.Over (fun x => ∃ case ∈ cases, x ∈ case) (d.nodes.size ≤ ·) ∧ trie.recursion = none := by
  unfold factorize at h
  split at h
  next b hb => exact sprouted_plant hb h
  next hb =>
    cases h
    exact ⟨.refl _ _ d, Trie.over_empty _ _, rfl⟩

theorem sprouted_plantLoop {tails : List (List NodeId)} {loop : Option NodeId}
    (h : d.plantLoop owner tails = (loop, d')) :
    Sprouted d.nodes.size (fun x => ∃ tail ∈ tails, x ∈ tail) d d' ∧
      ∀ next ∈ loop, d.nodes.size ≤ next := by
  unfold plantLoop at h
  split at h
  next b hb =>
    rcases hp : plant owner b d with ⟨trie, d₁⟩
    simp only [hp] at h
    cases h
    obtain ⟨hs, ho, -⟩ := sprouted_plant hb hp
    have hle : d.nodes.size ≤ d₁.nodes.size := hs.grows.size_le
    have htails : Sprouted d.nodes.size (fun x => ∃ tail ∈ tails, x ∈ tail) d
        (d₁.pushFactor owner trie) := hs.trans (.pushFactor owner (.inl ho))
    refine ⟨htails.trans (.pushFactor owner (.inr ⟨d₁.nextId, hle, rfl⟩)), fun next hn => ?_⟩
    cases hn
    exact htails.grows.size_le
  next hb =>
    cases h
    exact ⟨.refl _ _ d, fun _ hn => nomatch hn⟩

/-- Whether the symbol stands in a case of the node. -/
def Mentions (d : Draft) (id x : NodeId) : Prop := ∃ case ∈ d.casesOf id, x ∈ case

/-- One medium got a trie over the symbols of its cases, and factors over them. -/
def Sprouts (id : NodeId) (d d' : Draft) : Prop :=
  ∃ d₁ trie, Sprouted d.nodes.size (d.Mentions id) d d₁ ∧
    trie.Over (d.Mentions id) (d.nodes.size ≤ ·) ∧ d' = d₁.setTrie id trie

theorem sprouts_factorizeMedium (d : Draft) (id : NodeId) : Sprouts id d (d.factorizeMedium id) := by
  unfold factorizeMedium
  rcases hp : d.factorize (d.nameOf id) (d.casesOf id) with ⟨trie, d₁⟩
  obtain ⟨hs, ho, -⟩ := sprouted_factorize hp
  exact ⟨d₁, trie, hs, ho, rfl⟩

theorem sprouts_factorizeKeeping (h : d.factorizeKeeping id = .ok d') : Sprouts id d d' := by
  have hbase (x : NodeId) : (∃ case ∈ d.baseCases id, x ∈ case) → d.Mentions id x :=
    fun ⟨case, hc, hx⟩ => ⟨case, List.mem_of_mem_filter hc, hx⟩
  have htails (x : NodeId) :
      (∃ tail ∈ (d.recursiveCases id).map (·.drop 1), x ∈ tail) → d.Mentions id x := by
    rintro ⟨_, ht, hx⟩
    obtain ⟨case, hc, rfl⟩ := List.mem_map.1 ht
    exact ⟨case, List.mem_of_mem_filter hc, List.mem_of_mem_drop hx⟩
  unfold factorizeKeeping at h
  rcases hp : d.factorize (d.nameOf id) (d.baseCases id) with ⟨trie, d₁⟩
  obtain ⟨hs, ho, -⟩ := sprouted_factorize hp
  have hs := hs.imp (Nat.le_refl _) hbase
  have hheads : ∀ e ∈ trie.cases, d.Mentions id e.1 := fun e he => hbase _ (ho.heads e he)
  simp only [hp] at h
  split at h
  · exact nomatch h
  split at h
  · cases h
    exact ⟨d₁, trie, hs, ⟨hheads, ho.continuation, ho.recursion⟩, rfl⟩
  · rcases hq : d₁.plantLoop (d.nameOf id) ((d.recursiveCases id).map (·.drop 1)) with ⟨loop, d₂⟩
    rw [hq] at h
    cases h
    obtain ⟨hs', hloop⟩ := sprouted_plantLoop hq
    have hle := hs.grows.size_le
    exact ⟨d₂, { trie with recursion := loop }, hs.trans (hs'.imp hle htails),
      ⟨hheads, ho.continuation, fun next hn => Nat.le_trans hle (hloop next hn)⟩, rfl⟩

/-- Where the trie of a node comes from: it was set for the medium, it was there before, or the node
is a new factor. -/
theorem Sprouts.trie?_cases (h : Sprouts id d d') (hm : (d.shape? id).any (·.isMedium)) {i : NodeId}
    {t : Trie} (ht : d'.trie? i = some t) :
    (i = id ∧ t.Over (d.Mentions id) (d.nodes.size ≤ ·)) ∨ (i ≠ id ∧ d.trie? i = some t) ∨
      d.nodes.size ≤ i ∧ (t.Over (d.Mentions id) (d.nodes.size ≤ ·) ∨
        ∃ tails, d.nodes.size ≤ tails ∧ t = .loop tails i) := by
  obtain ⟨d₁, trie, hs, ho, rfl⟩ := h
  by_cases hi : i = id
  · subst hi
    obtain ⟨m, hshape⟩ := exists_shape? (lt_size_of_isMedium hm)
    rw [hshape, Option.any_some] at hm
    rw [trie?_setTrie_self (hs.grows _ m hshape) hm] at ht
    exact .inl ⟨rfl, Option.some.inj ht ▸ ho⟩
  · rw [trie?_setTrie_of_ne trie hi] at ht
    obtain ⟨m, hshape, hmt⟩ := Option.bind_eq_some_iff.1 ht
    rcases Nat.lt_or_ge i d.nodes.size with hlt | hle
    · exact .inr (.inl ⟨hi, by rw [trie?, hs.back hlt hshape, Option.bind_some, hmt]⟩)
    · obtain ⟨t', hk, ht'⟩ := hs.new i m hle hshape
      rw [Node.trie?, hk, Option.some.injEq] at hmt
      exact .inr (.inr ⟨hle, hmt ▸ ht'⟩)

/-- The nodes from before keep their cases, and the new ones are factors. -/
theorem Sprouts.isFactor (h : Sprouts id d d') {i : NodeId} {m : Node} (hle : d.nodes.size ≤ i)
    (hm : d'.shape? i = some m) : m.isFactor := by
  obtain ⟨d₁, trie, hs, -, rfl⟩ := h
  rw [shape?_setTrie] at hm
  have hnew {m : Node} (hm : d₁.shape? i = some m) : m.isFactor := by
    obtain ⟨t, hk, -⟩ := hs.new i m hle hm
    rw [Node.isFactor, hk]
  split at hm
  · obtain ⟨m', hm', rfl⟩ := Option.map_eq_some_iff.1 hm
    rw [isFactor_onMedium]
    exact hnew hm'
  · exact hnew hm

theorem Sprouts.isFactor_of_lt (h : Sprouts id d d') {i : NodeId} {m : Node}
    (hlt : i < d.nodes.size) (hm : d'.shape? i = some m) :
    ∃ m', d.shape? i = some m' ∧ m.isFactor = m'.isFactor := by
  obtain ⟨d₁, trie, hs, -, rfl⟩ := h
  rw [shape?_setTrie] at hm
  split at hm
  · obtain ⟨m', hm', rfl⟩ := Option.map_eq_some_iff.1 hm
    exact ⟨m', hs.back hlt hm', isFactor_onMedium _ _⟩
  · exact ⟨m, hs.back hlt hm, rfl⟩

theorem Sprouts.mem_casesOf (h : Sprouts id d d') {i : NodeId} {case : List NodeId}
    (hc : case ∈ d'.casesOf i) : case ∈ d.casesOf i := by
  obtain ⟨d₁, trie, hs, -, rfl⟩ := h
  rw [casesOf_setTrie] at hc
  rcases Nat.lt_or_ge i d.nodes.size with hlt | hle
  · rwa [hs.grows.casesOf hlt] at hc
  · obtain ⟨m, hm⟩ := exists_shape? (lt_size_of_mem_casesOf hc)
    obtain ⟨t, hk, -⟩ := hs.new i m hle hm
    rw [casesOf_of_shape? hm, Node.cases, Node.medium?, hk] at hc
    exact absurd hc List.not_mem_nil

/-! ### All mediums -/

/-- One medium of a sound draft sprouted. -/
structure Step (d d' : Draft) : Prop where
  sound : d'.Sound
  keeps : d.Keeps d'
  sprouts : ∃ id, (d.shape? id).any (·.isMedium) ∧ Sprouts id d d'

/-- One medium of a sound draft was factorized, as it is or with its left recursion kept. -/
inductive Factorizes (d : Draft) : Draft → Prop where
  | whole {id : NodeId} (hd : d.Sound) (hm : (d.shape? id).any (·.isMedium)) :
    Factorizes d (d.factorizeMedium id)
  | keeping {d' : Draft} {id : NodeId} (hd : d.Sound) (hm : (d.shape? id).any (·.isMedium))
    (h : d.factorizeKeeping id = .ok d') : Factorizes d d'

/-- Medium after medium is factorized, once left recursion has been removed, if it has to be. -/
theorem exists_factorizations (hd : d.Sound) {options : GrammarOptions}
    (h : d.factorizeAll options = .ok d') :
    ∃ d₁, (d₁ = d ∨ d.removeLeftRecursion d.mediumIds = .ok d₁) ∧ d₁.Sound ∧
      Relation.ReflTransGen Factorizes d₁ d' := by
  have hfold {step : Draft → NodeId → Except Fault Draft} {d d' : Draft} (hd : d.Sound)
      (hstep : ∀ (id : NodeId) (d d' : Draft), d.Sound → (d.shape? id).any (·.isMedium) →
        step d id = .ok d' → Refits id d d' ∧ Factorizes d d')
      (h : d.mediumIds.foldlM step d = .ok d') : Relation.ReflTransGen Factorizes d d' := by
    have hone : ∀ id ∈ d.mediumIds, ∀ x y : Draft,
        x.Sound ∧ d.Keeps x ∧ Relation.ReflTransGen Factorizes d x → step x id = .ok y →
          y.Sound ∧ d.Keeps y ∧ Relation.ReflTransGen Factorizes d y := by
      rintro id hid x y ⟨hx, hkeeps, hsteps⟩ hy
      have hm := (mem_mediumIds hd).1 hid
      have hm' : (x.shape? id).any (·.isMedium) := by
        rwa [hkeeps.isMedium (lt_size_of_isMedium hm)]
      obtain ⟨hrefits, hfactorizes⟩ := hstep id x y hx hm' hy
      exact ⟨hx.of_refits hrefits, hkeeps.trans hrefits.keeps, hsteps.tail hfactorizes⟩
    exact (Fault.foldlM_keeps hone ⟨hd, .refl d, .refl⟩ h).2.2
  unfold factorizeAll at h
  split at h
  · obtain ⟨d₁, hr, h⟩ := Fault.bind_eq_ok_iff.1 h
    cases h
    have hd₁ := (hd.removeLeftRecursion hr).1
    have hmediums : d₁.mediumIds.foldlM (fun d id => Except.ok (factorizeMedium d id)) d₁ =
        (.ok (d₁.mediumIds.foldl factorizeMedium d₁) : Except Fault Draft) := List.foldlM_pure
    refine ⟨d₁, .inr hr, hd₁, hfold hd₁ (fun id d d' hd hm h => ?_) hmediums⟩
    cases h
    exact ⟨refits_factorizeMedium hd id, .whole hd hm⟩
  · exact ⟨d, .inl rfl, hd, hfold hd (fun id d d' hd hm h =>
      ⟨refits_factorizeKeeping hd h, .keeping hd hm h⟩) h⟩

theorem Factorizes.step (h : d.Factorizes d') : Step d d' := by
  cases h with
  | @whole id hd hm =>
    have hrefits := refits_factorizeMedium hd id
    exact ⟨hd.of_refits hrefits, hrefits.keeps, id, hm, sprouts_factorizeMedium d id⟩
  | @keeping _ id hd hm h =>
    have hrefits := refits_factorizeKeeping hd h
    exact ⟨hd.of_refits hrefits, hrefits.keeps, id, hm, sprouts_factorizeKeeping h⟩

/-- With each of them one medium sprouts. -/
theorem exists_steps (hd : d.Sound) {options : GrammarOptions}
    (h : d.factorizeAll options = .ok d') :
    ∃ d₁, (d₁ = d ∨ d.removeLeftRecursion d.mediumIds = .ok d₁) ∧ d₁.Sound ∧
      Relation.ReflTransGen Step d₁ d' := by
  obtain ⟨d₁, hd₁, hsound, hall⟩ := exists_factorizations hd h
  exact ⟨d₁, hd₁, hsound, Relation.ReflTransGen.mono (fun _ _ => Factorizes.step) _ _ hall⟩

/-- The nodes from `n` on are the factors. No case names one, and a trie goes on with nothing else;
as a head there is one in a loop alone. -/
structure Layered (n : Nat) (d : Draft) : Prop where
  le : n ≤ d.nodes.size
  isFactor_iff (id : NodeId) (m : Node) : d.shape? id = some m → (m.isFactor ↔ n ≤ id)
  cases_lt (id : NodeId) : ∀ case ∈ d.casesOf id, ∀ x ∈ case, x < n
  tries (id : NodeId) (t : Trie) : d.trie? id = some t → t.Over (· < n) (n ≤ ·) ∨
    n ≤ id ∧ ∃ tails, n ≤ tails ∧ t = .loop tails id

namespace Layered

theorem of_unfactorized (hd : d.Sound) (hu : d.Unfactorized) : d.Layered d.nodes.size where
  le := Nat.le_refl _
  isFactor_iff id m hm := by
    refine iff_of_false (fun hf => ?_) (Nat.not_le.2 (lt_size_of_shape? hm))
    obtain ⟨_, _, _, kind⟩ := m
    cases kind with
    | factor t =>
      have hmedium := hu.medium id t (by rw [trie?, hm]; rfl)
      rw [hm] at hmedium
      exact absurd hmedium Bool.false_ne_true
    | _ => exact absurd hf Bool.false_ne_true
  cases_lt := hd.cases_lt
  tries id t ht := .inl (hu.trie_empty id t ht ▸ Trie.over_empty _ _)

theorem step (h : d.Layered n) (hs : Step d d') : d'.Layered n := by
  obtain ⟨-, hkeeps, id, hm, hsprouts⟩ := hs
  have hover {t : Trie} (ht : t.Over (d.Mentions id) (d.nodes.size ≤ ·)) : t.Over (· < n) (n ≤ ·) :=
    ht.imp (fun x ⟨case, hc, hx⟩ => h.cases_lt id case hc x hx) (fun _ => Nat.le_trans h.le)
  refine ⟨Nat.le_trans h.le hkeeps.size_le, fun i m hi => ?_, fun i case hc =>
    h.cases_lt i case (hsprouts.mem_casesOf hc), fun i t ht => ?_⟩
  · rcases Nat.lt_or_ge i d.nodes.size with hlt | hle
    · obtain ⟨m', hm', heq⟩ := hsprouts.isFactor_of_lt hlt hi
      rw [heq]
      exact h.isFactor_iff i m' hm'
    · exact iff_of_true (hsprouts.isFactor hle hi) (Nat.le_trans h.le hle)
  · rcases hsprouts.trie?_cases hm ht with ⟨-, ho⟩ | ⟨-, ht⟩ | ⟨hle, ho | ⟨tails, htails, rfl⟩⟩
    · exact .inl (hover ho)
    · exact h.tries i t ht
    · exact .inl (hover ho)
    · exact .inr ⟨Nat.le_trans h.le hle, tails, Nat.le_trans h.le htails, rfl⟩

theorem isFactor_of_trie? (h : d.Layered n) {id : NodeId}
    (hle : n ≤ id) (ht : (d.trie? id).isSome) : (d.shape? id).any (·.isFactor) := by
  obtain ⟨t, ht⟩ := Option.isSome_iff_exists.1 ht
  obtain ⟨m, hm, -⟩ := Option.bind_eq_some_iff.1 ht
  rw [hm, Option.any_some]
  exact (h.isFactor_iff id m hm).2 hle

theorem le_of_isFactor (h : d.Layered n) {id : NodeId}
    (hf : (d.shape? id).any (·.isFactor)) : n ≤ id := by
  cases hm : d.shape? id with
  | none => rw [hm] at hf; exact nomatch hf
  | some m =>
    rw [hm, Option.any_some] at hf
    exact (h.isFactor_iff id m hm).1 hf

/-- Behind a trie of a layered draft stand factors, and before it only in a loop. -/
theorem links (h : d.Layered n) {id : NodeId} {t : Trie}
    (ht : d.trie? id = some t) (hf : d.Fits t) :
    (∀ e ∈ t.cases, ∀ next ∈ e.2, (d.shape? next).any (·.isFactor)) ∧
      (∀ next ∈ t.recursion, (d.shape? next).any (·.isFactor)) ∧
      ∀ e ∈ t.cases, (d.shape? e.1).any (·.isFactor) →
        (d.shape? id).any (·.isFactor) ∧ t = .loop e.1 id := by
  rcases h.tries id t ht with ho | ⟨hle, tails, htails, rfl⟩
  · refine ⟨fun e he next hn => ?_, fun next hn => ?_, fun e he hfactor => ?_⟩
    · exact h.isFactor_of_trie? (ho.continuation e he next hn) (hf.continuation e he next hn)
    · exact h.isFactor_of_trie? (ho.recursion next hn) (hf.recursion next hn)
    · exact absurd (h.le_of_isFactor hfactor) (Nat.not_le.2 (ho.heads e he))
  · have hself : (d.shape? id).any (·.isFactor) := h.isFactor_of_trie? hle (by rw [ht]; rfl)
    refine ⟨fun e he next hn => ?_, fun _ hn => (nomatch hn), fun e he _ => ?_⟩
    · cases List.mem_singleton.1 he
      cases hn
      exact hself
    · cases List.mem_singleton.1 he
      exact ⟨hself, rfl⟩

end Layered

/-- A factorized draft is layered. -/
theorem exists_layered (hd : d.Sound) (hu : d.Unfactorized) {options : GrammarOptions}
    (h : d.factorizeAll options = .ok d') : ∃ n, d'.Layered n := by
  obtain ⟨d₁, hd₁, hsound₁, hsteps⟩ := exists_steps hd h
  have hu₁ : d₁.Unfactorized := by
    rcases hd₁ with rfl | hr
    · exact hu
    · exact hu.of_removals hr
  refine ⟨d₁.nodes.size, ?_⟩
  clear h
  induction hsteps with
  | refl => exact .of_unfactorized hsound₁ hu₁
  | tail _ hstep ih => exact ih.step hstep

end Draft

end Syntagma
