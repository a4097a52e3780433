import Syntagma.Proofs.Grammar.Sprouting

/-! The factors made for one medium are a stack. Each goes on with earlier ones only, but for a
loop: it is made last, goes through one of the others, and comes back to itself. The medium goes on
with the others, and has the loop behind it. -/

namespace Syntagma

/-- The trie has no loop behind it, and goes on with factors of these numbers. -/
structure Trie.Within (lo hi : Nat) (t : Trie) : Prop where
  recursion : t.recursion = none
  behind : ∀ e ∈ t.cases, ∀ next : Nat, next ∈ e.2 → lo ≤ next ∧ next < hi

theorem Trie.Within.mono {lo lo' hi hi' : Nat} {t : Trie} (h : t.Within lo hi) (hlo : lo' ≤ lo)
    (hhi : hi ≤ hi') : t.Within lo' hi' where
  recursion := h.recursion
  behind e he next hn :=
    ⟨Nat.le_trans hlo (h.behind e he next hn).1, Nat.lt_of_lt_of_le (h.behind e he next hn).2 hhi⟩

theorem Trie.within_empty (lo hi : Nat) : Trie.empty.Within lo hi where
  recursion := rfl
  behind _ he := absurd he List.not_mem_nil

namespace Draft

variable {d d' d'' d₁ : Draft} {base id top i j : Nat} {owner : String} {trie : Trie}

/-- The factors added between the two drafts go on with those from `base` on, and each of them with
earlier ones only. -/
structure Stacked (base : Nat) (d d' : Draft) : Prop where
  grows : d.Grows d'
  new (i : Nat) : d.nodes.size ≤ i → i < d'.nodes.size →
    ∃ t, d'.trie? i = some t ∧ t.Within base i

namespace Stacked

theorem refl (base : Nat) (d : Draft) : Stacked base d d where
  grows := .refl d
  new _ hle hlt := absurd hlt (Nat.not_lt.2 hle)

theorem trans (h : Stacked base d d') (h' : Stacked base d' d'') : Stacked base d d'' where
  grows := h.grows.trans h'.grows
  new i hle hlt := by
    rcases Nat.lt_or_ge i d'.nodes.size with hi | hi
    · obtain ⟨t, ht, hw⟩ := h.new i hle hi
      exact ⟨t, h'.grows.trie? ht, hw⟩
    · exact h'.new i hi hlt

theorem mono {base' : Nat} (h : Stacked base d d') (hle : base' ≤ base) : Stacked base' d d' where
  grows := h.grows
  new i hi hlt := by
    obtain ⟨t, ht, hw⟩ := h.new i hi hlt
    exact ⟨t, ht, hw.mono hle (Nat.le_refl _)⟩

theorem pushFactor (owner : String) (h : trie.Within base d.nodes.size) :
    Stacked base d (d.pushFactor owner trie) where
  grows := grows_push _ _ _ _
  new i hle hlt := by
    rw [Draft.pushFactor, size_push] at hlt
    obtain rfl : i = d.nodes.size := Nat.le_antisymm (Nat.le_of_lt_succ hlt) hle
    exact ⟨trie, trie?_of_keepsFactors (.refl _), h⟩

end Stacked

theorem size_pushFactor (d : Draft) (owner : String) (trie : Trie) :
    (d.pushFactor owner trie).nodes.size = d.nodes.size + 1 := size_push _ _ _ _

mutual

theorem stacked_plant {owner : String} {b : Branching} {d d' : Draft} {trie : Trie}
    (h : plant owner b d = (trie, d')) :
    Stacked d.nodes.size d d' ∧ trie.Within d.nodes.size d'.nodes.size := by
  obtain ⟨branches, ends⟩ := b
  unfold plant at h
  rcases hp : plantBranches owner branches d with ⟨cases, d₁⟩
  rw [hp] at h
  cases h
  obtain ⟨hs, hbehind⟩ := stacked_plantBranches hp
  exact ⟨hs, rfl, hbehind⟩

theorem stacked_plantBranches {owner : String} {branches : List (NodeId × Option Branching)}
    {d d' : Draft} {cases : List (NodeId × Option NodeId)}
    (h : plantBranches owner branches d = (cases, d')) : Stacked d.nodes.size d d' ∧
      ∀ e ∈ cases, ∀ next : Nat, next ∈ e.2 → d.nodes.size ≤ next ∧ next < d'.nodes.size := by
  match branches with
  | [] =>
    cases h
    exact ⟨.refl _ d, fun e he => absurd he List.not_mem_nil⟩
  | (head, none) :: rest =>
    unfold plantBranches at h
    rcases hp : plantBranches owner rest d with ⟨more, d₁⟩
    rw [hp] at h
    cases h
    obtain ⟨hs, hbehind⟩ := stacked_plantBranches hp
    refine ⟨hs, fun e he next hn => ?_⟩
    rcases List.mem_cons.1 he with rfl | he
    · exact nomatch hn
    · exact hbehind e he next hn
  | (head, some b) :: rest =>
    unfold plantBranches at h
    rcases hp : plant owner b d with ⟨trie, d₁⟩
    rcases hq : plantBranches owner rest (d₁.pushFactor owner trie) with ⟨more, d₂⟩
    simp only [hp, hq] at h
    cases h
    obtain ⟨hs, hw⟩ := stacked_plant hp
    obtain ⟨hs', hbehind⟩ := stacked_plantBranches hq
    have hsize := size_pushFactor d₁ owner trie
    have hle : d.nodes.size ≤ d₁.nodes.size := hs.grows.size_le
    have hle' := hs'.grows.size_le
    refine ⟨(hs.trans (.pushFactor owner hw)).trans (hs'.mono (by omega)), fun e he next hn => ?_⟩
    rcases List.mem_cons.1 he with rfl | he
    · obtain rfl := Option.some.inj hn
      exact ⟨hle, show d₁.nodes.size < d'.nodes.size by omega⟩
    · obtain ⟨hlo, hhi⟩ := hbehind e he next hn
      exact ⟨by omega, hhi⟩

end

theorem stacked_factorize {cases : List (List NodeId)} (h : d.factorize owner cases = (trie, d')) :
    Stacked d.nodes.size d d' ∧ trie.Within d.nodes.size d'.nodes.size := by
  unfold factorize at h
  split at h
  · exact stacked_plant h
  · cases h
    exact ⟨.refl _ d, Trie.within_empty _ _⟩

/-- There is no loop, or it stands on top of the factors that its tails go on with. -/
theorem stacked_plantLoop {tails : List (List NodeId)} {loop : Option NodeId}
    (h : d.plantLoop owner tails = (loop, d')) : (loop = none ∧ d' = d) ∨
      ∃ d₁, ∃ tail : Nat, Stacked d.nodes.size d d₁ ∧ d.nodes.size ≤ tail ∧ tail < d₁.nodes.size ∧
        loop = some d₁.nodes.size ∧ d' = d₁.pushFactor owner (.loop tail d₁.nodes.size) := by
  unfold plantLoop at h
  split at h
  next b hb =>
    rcases hp : plant owner b d with ⟨trie, d₁⟩
    simp only [hp] at h
    cases h
    obtain ⟨hs, hw⟩ := stacked_plant hp
    refine .inr ⟨d₁.pushFactor owner trie, d₁.nodes.size, hs.trans (.pushFactor owner hw),
      hs.grows.size_le, ?_, rfl, rfl⟩
    rw [size_pushFactor]
    exact Nat.lt_succ_self _
  · cases h
    exact .inl ⟨rfl, rfl⟩

/-- One medium was factorized. The factors below `top` are stacked, the medium goes on with these,
and if it has a loop this stands on the top, with tails that are one of these. -/
structure Raises (id top : Nat) (d d' : Draft) : Prop where
  lt : id < d.nodes.size
  le : d.nodes.size ≤ top
  new (i : Nat) : d.nodes.size ≤ i → i < top → ∃ t, d'.trie? i = some t ∧ t.Within d.nodes.size i
  root : ∃ t, d'.trie? id = some t ∧
    (∀ e ∈ t.cases, ∀ next : Nat, next ∈ e.2 → d.nodes.size ≤ next ∧ next < top) ∧
      ∀ next ∈ t.recursion, next = top ∧ top < d'.nodes.size
  loop : d'.nodes.size = top ∨ d'.nodes.size = top + 1 ∧ ∃ tails : Nat, d.nodes.size ≤ tails ∧
    tails < top ∧ d'.trie? top = some (.loop tails top)
  old (i : Nat) : i < d.nodes.size → i ≠ id → d'.trie? i = d.trie? i

/-- A medium is raised by a trie over stacked factors, with no loop or one on top of them. -/
theorem Stacked.raises (h : Stacked d.nodes.size d d₁) (owner : String)
    (hm : (d.shape? id).any (·.isMedium))
    (hbehind : ∀ e ∈ trie.cases, ∀ next : Nat, next ∈ e.2 →
      d.nodes.size ≤ next ∧ next < d₁.nodes.size)
    (hloop : (trie.recursion = none ∧ d' = d₁) ∨ ∃ tail : Nat, d.nodes.size ≤ tail ∧
      tail < d₁.nodes.size ∧ trie.recursion = some d₁.nodes.size ∧
        d' = d₁.pushFactor owner (.loop tail d₁.nodes.size)) :
    Raises id d₁.nodes.size d (d'.setTrie id trie) := by
  have hgrows : d₁.Grows d' := by
    rcases hloop with ⟨-, rfl⟩ | ⟨tail, -, -, -, rfl⟩
    · exact .refl d'
    · exact grows_push _ _ _ _
  have hlt := lt_size_of_isMedium hm
  have hle := h.grows.size_le
  refine ⟨hlt, hle, fun i hi hi' => ?_, ?_, ?_, fun i hi hne => ?_⟩
  · obtain ⟨t, ht, hw⟩ := h.new i hi hi'
    rw [trie?_setTrie_of_ne _ (Nat.ne_of_gt (Nat.lt_of_lt_of_le hlt hi))]
    exact ⟨t, hgrows.trie? ht, hw⟩
  · obtain ⟨m, hs⟩ := exists_shape? hlt
    rw [hs, Option.any_some] at hm
    refine ⟨trie, trie?_setTrie_self (hgrows _ m (h.grows _ m hs)) hm trie, hbehind,
      fun next hn => ?_⟩
    rw [size_setTrie]
    rcases hloop with ⟨hnone, -⟩ | ⟨tail, -, -, hsome, rfl⟩
    · rw [hnone] at hn
      exact nomatch hn
    · rw [size_pushFactor]
      exact ⟨Option.some.inj (hn.symm.trans hsome), Nat.lt_succ_self _⟩
  · rw [size_setTrie, trie?_setTrie_of_ne _ (Nat.ne_of_gt (Nat.lt_of_lt_of_le hlt hle))]
    rcases hloop with ⟨-, rfl⟩ | ⟨tail, hlo, hhi, -, rfl⟩
    · exact .inl rfl
    · exact .inr ⟨size_pushFactor _ _ _, tail, hlo, hhi, trie?_of_keepsFactors (.refl _)⟩
  · obtain ⟨m, hs⟩ := exists_shape? hi
    rw [trie?_setTrie_of_ne _ hne, trie?, trie?, hgrows i m (h.grows i m hs), hs]

theorem raises_factorizeMedium (hm : (d.shape? id).any (·.isMedium)) :
    ∃ top, Raises id top d (d.factorizeMedium id) := by
  unfold factorizeMedium
  rcases hp : d.factorize (d.nameOf id) (d.casesOf id) with ⟨trie, d₁⟩
  obtain ⟨hs, hw⟩ := stacked_factorize hp
  exact ⟨_, hs.raises (d.nameOf id) hm hw.behind (.inl ⟨hw.recursion, rfl⟩)⟩

theorem raises_factorizeKeeping (hm : (d.shape? id).any (·.isMedium))
    (h : d.factorizeKeeping id = .ok d') : ∃ top, Raises id top d d' := by
  unfold factorizeKeeping at h
  rcases hp : d.factorize (d.nameOf id) (d.baseCases id) with ⟨trie, d₁⟩
  obtain ⟨hs, hw⟩ := stacked_factorize hp
  simp only [hp] at h
  split at h
  · exact nomatch h
  split at h
  · cases h
    exact ⟨_, hs.raises (d.nameOf id) hm hw.behind (.inl ⟨hw.recursion, rfl⟩)⟩
  · rcases hq : d₁.plantLoop (d.nameOf id) ((d.recursiveCases id).map (·.drop 1)) with ⟨loop, d₂⟩
    rw [hq] at h
    cases h
    rcases stacked_plantLoop hq with ⟨rfl, rfl⟩ | ⟨d₃, tail, hs', hlo, hhi, rfl, rfl⟩
    · exact ⟨_, hs.raises (d.nameOf id) hm hw.behind (.inl ⟨rfl, rfl⟩)⟩
    · have hle := hs.grows.size_le
      have hle' := hs'.grows.size_le
      refine ⟨_, (hs.trans (hs'.mono hle)).raises (d.nameOf id) hm (fun e he next hn => ?_)
        (.inr ⟨tail, Nat.le_trans hle hlo, hhi, rfl, rfl⟩)⟩
      obtain ⟨hlo', hhi'⟩ := hw.behind e he next hn
      exact ⟨hlo', Nat.lt_of_lt_of_le hhi' hle'⟩

theorem Factorizes.raises (h : d.Factorizes d') :
    ∃ id top, (d.shape? id).any (·.isMedium) ∧ Raises id top d d' := by
  cases h with
  | @whole id _ hm =>
    obtain ⟨top, h⟩ := raises_factorizeMedium hm
    exact ⟨id, top, hm, h⟩
  | @keeping _ id _ hm h =>
    obtain ⟨top, h⟩ := raises_factorizeKeeping hm h
    exact ⟨id, top, hm, h⟩

namespace Raises

/-- Where the trie of a node comes from. -/
theorem trie?_cases (h : Raises id top d d') {t : Trie} (ht : d'.trie? i = some t) :
    (i < d.nodes.size ∧ i ≠ id ∧ d.trie? i = some t) ∨
      (i = id ∧ (∀ e ∈ t.cases, ∀ next : Nat, next ∈ e.2 → d.nodes.size ≤ next ∧ next < top) ∧
        ∀ next ∈ t.recursion, next = top ∧ top < d'.nodes.size) ∨
      (d.nodes.size ≤ i ∧ i < top ∧ t.Within d.nodes.size i) ∨
      (i = top ∧ top < d'.nodes.size ∧ ∃ tails : Nat, d.nodes.size ≤ tails ∧ tails < top ∧
        t = .loop tails top) := by
  by_cases hi : i = id
  · subst hi
    obtain ⟨t', ht', hroot⟩ := h.root
    obtain rfl := Option.some.inj (ht.symm.trans ht')
    exact .inr (.inl ⟨rfl, hroot⟩)
  rcases Nat.lt_or_ge i d.nodes.size with hold | hnew
  · exact .inl ⟨hold, hi, h.old i hold hi ▸ ht⟩
  rcases Nat.lt_or_ge i top with hlt | hge
  · obtain ⟨t', ht', hw⟩ := h.new i hnew hlt
    obtain rfl := Option.some.inj (ht.symm.trans ht')
    exact .inr (.inr (.inl ⟨hnew, hlt, hw⟩))
  · have hsize : i < d'.nodes.size := lt_size_of_trie? ht
    rcases h.loop with hnone | ⟨hsucc, tails, hlo, hhi, hloop⟩
    · omega
    · obtain rfl : i = top := by omega
      obtain rfl := Option.some.inj (ht.symm.trans hloop)
      exact .inr (.inr (.inr ⟨rfl, hsize, tails, hlo, hhi, rfl⟩))

theorem top_le (h : Raises id top d d') : top ≤ d'.nodes.size := by
  rcases h.loop with hsize | ⟨hsize, -⟩ <;> omega

end Raises

end Draft

end Syntagma
