import Syntagma.Grammar.Compile
import Syntagma.Proofs.Fault
import Syntagma.Proofs.Grammar.Planting

/-! The stages of compilation. Every draft on the way is sound: its nodes are numbered in order,
and its cases and tries refer to its own nodes. -/

namespace Syntagma.Draft

structure Sound (d : Draft) : Prop where
  id_eq (id : NodeId) (n : Node) : d.shape? id = some n → n.id = id
  cases_lt (id : NodeId) : ∀ case ∈ d.casesOf id, ∀ x ∈ case, x < d.nodes.size
  fits (id : NodeId) (trie : Trie) : d.trie? id = some trie → d.Fits trie

variable {d d' : Draft} {id : NodeId}

theorem Fits.of_isSome {trie : Trie} (h : d.Fits trie) (hsize : d.nodes.size ≤ d'.nodes.size)
    (hs : ∀ id, (d.trie? id).isSome → (d'.trie? id).isSome) : d'.Fits trie where
  nodup := h.nodup
  heads_lt e he := Nat.lt_of_lt_of_le (h.heads_lt e he) hsize
  continuation e he next hn := hs next (h.continuation e he next hn)
  recursion next hn := hs next (h.recursion next hn)

/-! ### Tries that are set -/

theorem trie?_setTrie_of_ne (trie : Trie) {i : NodeId} (h : i ≠ id) :
    (d.setTrie id trie).trie? i = d.trie? i := by
  rw [trie?, shape?_setTrie, if_neg h]
  rfl

theorem trie?_setTrie_self {n : Node} (h : d.shape? id = some n) (hm : n.isMedium) (trie : Trie) :
    (d.setTrie id trie).trie? id = some trie := by
  rw [trie?, shape?_setTrie, if_pos rfl, h]
  obtain ⟨_, _, _, kind⟩ := n
  cases kind with
  | medium data => rfl
  | _ => exact absurd hm Bool.false_ne_true

theorem trie?_setTrie_cases {trie t : Trie} {i : NodeId}
    (h : (d.setTrie id trie).trie? i = some t) : t = trie ∨ d.trie? i = some t := by
  by_cases hi : i = id
  · subst hi
    cases hs : d.shape? i with
    | none =>
      rw [trie?, shape?_setTrie, if_pos rfl, hs] at h
      cases h
    | some n =>
      by_cases hm : n.isMedium
      · rw [trie?_setTrie_self hs hm] at h
        exact .inl (Option.some.inj h).symm
      · -- any other node keeps what it has
        refine .inr ?_
        rw [trie?, shape?_setTrie, if_pos rfl, hs] at h
        rw [trie?, hs, ← h]
        obtain ⟨_, _, _, kind⟩ := n
        cases kind with
        | medium data => exact absurd rfl hm
        | _ => rfl
  · rw [trie?_setTrie_of_ne trie hi] at h
    exact .inr h

theorem isSome_trie?_setTrie {trie : Trie} {i : NodeId} (h : (d.trie? i).isSome) :
    ((d.setTrie id trie).trie? i).isSome := by
  rw [trie?, shape?_setTrie]
  split
  · rw [trie?] at h
    cases hs : d.shape? i with
    | none => simp [hs] at h
    | some n =>
      rw [hs] at h
      obtain ⟨_, _, _, kind⟩ := n
      cases kind <;> first | rfl | exact h
  · exact h

theorem casesOf_setTrie (d : Draft) (id : NodeId) (trie : Trie) (i : NodeId) :
    (d.setTrie id trie).casesOf i = d.casesOf i := by
  rw [casesOf_eq, shape?_setTrie, casesOf_eq]
  split
  · cases d.shape? i with
    | none => rfl
    | some n =>
      obtain ⟨_, _, _, kind⟩ := n
      cases kind <;> rfl
  · rfl

theorem id_eq_onMedium {f : Node → Node} {i : NodeId} {n : Node} (hf : ∀ m, (f m).id = m.id)
    (h : ∀ n, d.shape? i = some n → n.id = i)
    (hn : (if i = id then (d.shape? i).map f else d.shape? i) = some n) : n.id = i := by
  split at hn
  · obtain ⟨m, hm, rfl⟩ := Option.map_eq_some_iff.1 hn
    rw [hf, h m hm]
  · exact h n hn

theorem Sound.setTrie (hd : d.Sound) {trie : Trie} (ht : d.Fits trie) :
    (d.setTrie id trie).Sound := by
  have hfit {t : Trie} (h : d.Fits t) : (d.setTrie id trie).Fits t :=
    h.of_isSome (Nat.le_of_eq (size_setTrie d id trie).symm) (fun _ => isSome_trie?_setTrie)
  refine ⟨fun i n hn => ?_, fun i case hc => ?_, fun i t hi => ?_⟩
  · rw [shape?_setTrie] at hn
    exact id_eq_onMedium (id_onMedium _) (hd.id_eq i) hn
  · rw [casesOf_setTrie] at hc
    rw [size_setTrie]
    exact hd.cases_lt i case hc
  · rcases trie?_setTrie_cases hi with rfl | hi
    · exact hfit ht
    · exact hfit (hd.fits i t hi)

/-! ### Factors that are planted -/

theorem Planted.back (h : Planted d d') {n : Node} (hid : id < d.nodes.size)
    (hn : d'.shape? id = some n) : d.shape? id = some n := by
  obtain ⟨m, hm⟩ := exists_shape? hid
  rw [h.grows id m hm] at hn
  rw [hm, hn]

theorem Sound.of_planted (hd : d.Sound) (h : Planted d d') : d'.Sound := by
  refine ⟨fun i n hn => ?_, fun i case hc => ?_, fun i t ht => ?_⟩
  · rcases Nat.lt_or_ge i d.nodes.size with hi | hi
    · exact hd.id_eq i n (h.back hi hn)
    · exact h.id_eq i n hi hn
  · rcases Nat.lt_or_ge i d.nodes.size with hi | hi
    · rw [h.grows.casesOf hi] at hc
      exact fun x hx => Nat.lt_of_lt_of_le (hd.cases_lt i case hc x hx) h.grows.size_le
    · obtain ⟨n, hn⟩ := exists_shape? (lt_size_of_mem_casesOf hc)
      obtain ⟨trie, hk, -⟩ := h.new i n hi hn
      rw [casesOf_of_shape? hn, Node.cases, Node.medium?, hk] at hc
      exact absurd hc List.not_mem_nil
  · obtain ⟨n, hn, htn⟩ := Option.bind_eq_some_iff.1 ht
    rcases Nat.lt_or_ge i d.nodes.size with hi | hi
    · refine (hd.fits i t ?_).of_grows h.grows
      rw [trie?, h.back hi hn, Option.bind_some, htn]
    · obtain ⟨trie, hk, -, hf⟩ := h.new i n hi hn
      rw [Node.trie?, hk, Option.some.injEq] at htn
      exact htn ▸ hf

/-- One medium got a trie, over factors made for it. -/
def Refits (id : NodeId) (d d' : Draft) : Prop :=
  ∃ d₁ trie, Planted d d₁ ∧ d₁.Fits trie ∧ d' = d₁.setTrie id trie

theorem Sound.of_refits (hd : d.Sound) (h : Refits id d d') : d'.Sound := by
  obtain ⟨d₁, trie, hg, hf, rfl⟩ := h
  exact (hd.of_planted hg).setTrie hf

theorem Refits.keeps (h : Refits id d d') : d.Keeps d' := by
  obtain ⟨d₁, trie, hg, -, rfl⟩ := h
  exact hg.grows.keeps.trans (.setTrie d₁ id trie)

theorem refits_factorizeMedium (hd : d.Sound) (id : NodeId) :
    Refits id d (d.factorizeMedium id) := by
  unfold factorizeMedium
  rcases hp : d.factorize (d.nameOf id) (d.casesOf id) with ⟨trie, d₁⟩
  obtain ⟨hg, hf, -⟩ := factorize_spec (hd.cases_lt id) hp
  exact ⟨d₁, trie, hg, hf, rfl⟩

theorem lt_size_of_mem_tails (hd : d.Sound) :
    ∀ tail ∈ (d.recursiveCases id).map (·.drop 1), ∀ x ∈ tail, x < d.nodes.size := by
  intro tail ht x hx
  obtain ⟨case, hc, rfl⟩ := List.mem_map.1 ht
  exact hd.cases_lt id case (List.mem_of_mem_filter hc) x (List.mem_of_mem_drop hx)

/-- The cases that do not start with the medium make its trie, and the tails of the others its
loop. -/
theorem factorizeKeeping_spec (hd : d.Sound) (h : d.factorizeKeeping id = .ok d') :
    ∃ d₁ trie, Planted d d₁ ∧ d₁.Fits trie ∧ d' = d₁.setTrie id trie ∧
      (∀ d'', d₁.KeepsFactors d'' → ∀ w, trie.Spells d''.trie? w ↔ Reads (d.baseCases id) w) ∧
      d₁.Repeating ((d.recursiveCases id).map (·.drop 1)) trie.recursion := by
  have hbase : ∀ case ∈ d.baseCases id, ∀ x ∈ case, x < d.nodes.size :=
    fun case hc => hd.cases_lt id case (List.mem_of_mem_filter hc)
  unfold factorizeKeeping at h
  rcases hp : d.factorize (d.nameOf id) (d.baseCases id) with ⟨trie, d₁⟩
  obtain ⟨hg, hf, hr, hreads⟩ := factorize_spec hbase hp
  simp only [hp] at h
  split at h
  · exact nomatch h
  split at h
  next hnone =>
    cases h
    refine ⟨d₁, trie, hg, hf, rfl, hreads, ?_⟩
    rw [List.isEmpty_iff.1 hnone, hr]
    exact not_reads_nil
  · rcases hq : d₁.plantLoop (d.nameOf id) ((d.recursiveCases id).map (·.drop 1)) with ⟨loop, d₂⟩
    rw [hq] at h
    cases h
    have hlt : ∀ tail ∈ (d.recursiveCases id).map (·.drop 1), ∀ x ∈ tail, x < d₁.nodes.size :=
      fun tail ht x hx => Nat.lt_of_lt_of_le (lt_size_of_mem_tails hd tail ht x hx) hg.grows.size_le
    obtain ⟨hg', hl, hrep⟩ := plantLoop_spec hlt hq
    have hf' := hf.of_grows hg'.grows
    refine ⟨d₂, { trie with recursion := loop }, hg.trans hg',
      ⟨hf'.nodup, hf'.heads_lt, hf'.continuation, hl⟩, rfl, fun d'' hk w => ?_, hrep⟩
    rw [← hreads d'' (hg'.grows.keepsFactors.trans hk)]
    cases w <;> rfl

theorem refits_factorizeKeeping (hd : d.Sound) (h : d.factorizeKeeping id = .ok d') :
    Refits id d d' := by
  obtain ⟨d₁, trie, hg, hf, he, -⟩ := factorizeKeeping_spec hd h
  exact ⟨d₁, trie, hg, hf, he⟩

/-! ### Left recursion that is removed -/

/-- Between the two drafts, `n` tail mediums were added for one list of tails. -/
structure Tailed (tails : List (List NodeId)) (n : Nat) (d d' : Draft) : Prop where
  grows : d.Grows d'
  size : d'.nodes.size = d.nodes.size + n
  tail (i : Nat) : i < n → ∃ name, d'.shape? (d.nodes.size + i) = some
    ⟨d.nodes.size + i, name, none, .medium ⟨tailCases tails (d.nodes.size + i), .empty, none, true⟩⟩

theorem tailed_pushTails (name : String) (tails : List (List NodeId)) (n : Nat) (d : Draft) :
    Tailed tails n d ((List.range n).foldl (pushTail name tails) d) := by
  induction n with
  | zero => exact ⟨.refl d, rfl, fun i hi => absurd hi (Nat.not_lt_zero i)⟩
  | succ n ih =>
    rw [List.range_succ, List.foldl_append, List.foldl_cons, List.foldl_nil]
    generalize (List.range n).foldl (pushTail name tails) d = d₁ at ih ⊢
    have hgrows : d₁.Grows (pushTail name tails d₁ n) := grows_push _ _ _ _
    refine ⟨ih.grows.trans hgrows, ?_, fun i hi => ?_⟩
    · rw [pushTail, size_push, ih.size, Nat.add_assoc]
    · rcases Nat.lt_succ_iff_lt_or_eq.1 hi with hi | rfl
      · obtain ⟨name', hn⟩ := ih.tail i hi
        exact ⟨name', hgrows _ _ hn⟩
      · refine ⟨name ++ "(" ++ toString i ++ ")", ?_⟩
        rw [pushTail, shape?_push, if_pos ih.size.symm, nextId, ih.size]
        rfl

/-- The cases of a medium whose left recursion is removed. -/
def unrolledCases (base : List (List NodeId)) (start : NodeId) : List (List NodeId) :=
  base ++ base.mapIdx (fun i case => case ++ [start + i])

/-- A medium without leading recursion stays; any other gets its tails and loses the recursion. -/
theorem removeFromMedium_cases (h : d.removeFromMedium id = .ok d') :
    (d.recursiveCases id = [] ∧ d' = d) ∨
      (d.recursiveCases id ≠ [] ∧ d.baseCases id ≠ [] ∧ ∃ d₁,
        Tailed ((d.recursiveCases id).map (·.drop 1)) (d.baseCases id).length d d₁ ∧
          d' = d₁.setCases id (unrolledCases (d.baseCases id) d.nodes.size)) := by
  unfold removeFromMedium at h
  dsimp only at h
  split at h
  next hr =>
    cases h
    exact .inl ⟨List.isEmpty_iff.1 hr, rfl⟩
  next hr =>
    split at h
    · exact nomatch h
    next hb =>
      cases h
      refine .inr ⟨fun he => hr (List.isEmpty_iff.2 he), fun he => hb (List.isEmpty_iff.2 he),
        _, tailed_pushTails _ _ _ d, rfl⟩

theorem mem_tailCases {tails : List (List NodeId)} {t : NodeId} {case : List NodeId} :
    case ∈ tailCases tails t ↔ ∃ tail ∈ tails, case = tail ++ [t] ∨ case = tail := by
  simp [tailCases]

theorem mem_unrolledCases {base : List (List NodeId)} {start : NodeId} {case : List NodeId} :
    case ∈ unrolledCases base start ↔
      case ∈ base ∨ ∃ i, ∃ h : i < base.length, base[i] ++ [start + i] = case := by
  rw [unrolledCases, List.mem_append, List.mem_mapIdx]

theorem Tailed.shape?_cases {tails : List (List NodeId)} {n : Nat} (h : Tailed tails n d d')
    {i : NodeId} {m : Node} (hm : d'.shape? i = some m) : d.shape? i = some m ∨
      ∃ k < n, i = d.nodes.size + k ∧ ∃ name, m = ⟨i, name, none,
        .medium ⟨tailCases tails i, .empty, none, true⟩⟩ := by
  rcases Nat.lt_or_ge i d.nodes.size with hi | hi
  · obtain ⟨m', hm'⟩ := exists_shape? hi
    rw [h.grows i m' hm'] at hm
    exact .inl (hm ▸ hm')
  · obtain ⟨k, rfl⟩ := Nat.exists_eq_add_of_le hi
    have hk : k < n := Nat.lt_of_add_lt_add_left (h.size ▸ lt_size_of_shape? hm)
    obtain ⟨name, hn⟩ := h.tail k hk
    rw [hm, Option.some.injEq] at hn
    exact .inr ⟨k, hk, rfl, name, hn⟩

theorem Sound.of_tailed (hd : d.Sound) {tails : List (List NodeId)} {n : Nat}
    (ht : ∀ tail ∈ tails, ∀ x ∈ tail, x < d.nodes.size) (h : Tailed tails n d d') : d'.Sound := by
  have hsize := h.grows.size_le
  refine ⟨fun i m hm => ?_, fun i case hc x hx => ?_, fun i t hi => ?_⟩
  · rcases h.shape?_cases hm with hm | ⟨k, -, -, name, rfl⟩
    · exact hd.id_eq i m hm
    · rfl
  · obtain ⟨m, hm⟩ := exists_shape? (lt_size_of_mem_casesOf hc)
    rw [casesOf_of_shape? hm] at hc
    rcases h.shape?_cases hm with hm' | ⟨k, -, -, name, rfl⟩
    · rw [← casesOf_of_shape? hm'] at hc
      exact Nat.lt_of_lt_of_le (hd.cases_lt i case hc x hx) hsize
    · obtain ⟨tail, htail, hc⟩ := mem_tailCases.1 hc
      have hx' : x ∈ tail ∨ x = i := by
        rcases hc with rfl | rfl
        · simpa using hx
        · exact .inl hx
      rcases hx' with hx' | rfl
      · exact Nat.lt_of_lt_of_le (ht tail htail x hx') hsize
      · exact lt_size_of_shape? hm
  · obtain ⟨m, hm, hmt⟩ := Option.bind_eq_some_iff.1 hi
    rcases h.shape?_cases hm with hm' | ⟨k, -, -, name, rfl⟩
    · exact (hd.fits i t (by rw [trie?, hm', Option.bind_some, hmt])).of_grows h.grows
    · cases hmt
      exact fits_empty d'

theorem Sound.setCases (hd : d.Sound) {cases : List (List NodeId)}
    (hc : ∀ case ∈ cases, ∀ x ∈ case, x < d.nodes.size) : (d.setCases id cases).Sound := by
  refine ⟨fun i n hn => ?_, fun i case hcase => ?_, fun i t hi => ?_⟩
  · rw [shape?_setCases] at hn
    exact id_eq_onMedium (id_onMedium _) (hd.id_eq i) hn
  · rw [size_setCases]
    rcases mem_casesOf_setCases hcase with hcase | hcase
    · exact hc case hcase
    · exact hd.cases_lt i case hcase
  · rw [trie?_setCases] at hi
    have hsize := Nat.le_of_eq (size_setCases d id cases).symm
    refine (hd.fits i t hi).of_isSome hsize (fun x hx => ?_)
    rwa [trie?_setCases]

theorem Sound.removeFromMedium (hd : d.Sound) (h : d.removeFromMedium id = .ok d') : d'.Sound := by
  rcases removeFromMedium_cases h with ⟨-, rfl⟩ | ⟨-, -, d₁, ht, rfl⟩
  · exact hd
  refine (hd.of_tailed (lt_size_of_mem_tails hd) ht).setCases (fun case hc x hx => ?_)
  have hbase {case : List NodeId} (hc : case ∈ d.baseCases id) : ∀ x ∈ case, x < d.nodes.size :=
    hd.cases_lt id case (List.mem_of_mem_filter hc)
  rw [ht.size]
  rcases mem_unrolledCases.1 hc with hc | ⟨i, hi, rfl⟩
  · exact Nat.lt_add_right _ (hbase hc x hx)
  · rcases List.mem_append.1 hx with hx | hx
    · exact Nat.lt_add_right _ (hbase (List.getElem_mem hi) x hx)
    · rw [List.mem_singleton.1 hx]
      exact Nat.add_lt_add_left hi _

theorem keeps_removeFromMedium (h : d.removeFromMedium id = .ok d') : d.Keeps d' := by
  rcases removeFromMedium_cases h with ⟨-, rfl⟩ | ⟨-, -, d₁, ht, rfl⟩
  · exact .refl d'
  · exact ht.grows.keeps.trans (.setCases d₁ id _)

/-! ### All mediums -/

theorem Sound.removeLeftRecursion (hd : d.Sound) {ids : List NodeId}
    (h : d.removeLeftRecursion ids = .ok d') : d'.Sound ∧ d.Keeps d' := by
  have hstep : ∀ id ∈ ids, ∀ d₁ d₂ : Draft, d₁.Sound ∧ d.Keeps d₁ →
      d₁.removeFromMedium id = .ok d₂ → d₂.Sound ∧ d.Keeps d₂ :=
    fun _ _ _ _ ⟨hs, hk⟩ h => ⟨hs.removeFromMedium h, hk.trans (keeps_removeFromMedium h)⟩
  exact Fault.foldlM_keeps hstep ⟨hd, .refl d⟩ h

theorem Sound.factorizeMediums (hd : d.Sound) (ids : List NodeId) :
    (ids.foldl factorizeMedium d).Sound ∧ d.Keeps (ids.foldl factorizeMedium d) := by
  induction ids generalizing d with
  | nil => exact ⟨hd, .refl d⟩
  | cons id ids ih =>
    have hfit := refits_factorizeMedium hd id
    obtain ⟨hs, hk⟩ := ih (hd.of_refits hfit)
    exact ⟨hs, hfit.keeps.trans hk⟩

/-- Whether left recursion is removed or kept, the drafts stay sound and lose no node. -/
theorem Sound.factorizeAll (hd : d.Sound) {options : GrammarOptions}
    (h : d.factorizeAll options = .ok d') : d'.Sound ∧ d.Keeps d' := by
  unfold Draft.factorizeAll at h
  split at h
  · obtain ⟨d₁, hr, h⟩ := Fault.bind_eq_ok_iff.1 h
    cases h
    obtain ⟨hs₁, hk₁⟩ := hd.removeLeftRecursion hr
    obtain ⟨hs, hk⟩ := hs₁.factorizeMediums d₁.mediumIds
    exact ⟨hs, hk₁.trans hk⟩
  · have hstep : ∀ id ∈ d.mediumIds, ∀ d₁ d₂ : Draft, d₁.Sound ∧ d.Keeps d₁ →
        d₁.factorizeKeeping id = .ok d₂ → d₂.Sound ∧ d.Keeps d₂ := by
      intro id _ d₁ d₂ ⟨hs, hk⟩ h
      have hfit := refits_factorizeKeeping hs h
      exact ⟨hs.of_refits hfit, hk.trans hfit.keeps⟩
    exact Fault.foldlM_keeps hstep ⟨hd, .refl d⟩ h

end Syntagma.Draft
