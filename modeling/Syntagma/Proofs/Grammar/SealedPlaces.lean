import Syntagma.Proofs.Grammar.Sprouting

/-! Places that are left for tokens and one another only. Tails of removed recursion and factors are
made from the cases of a medium, so if those name only tokens and places, then so do the cases and
tries in the end, with what was made for places counted among the places. -/

namespace Syntagma.Draft

variable {d d' : Draft} {id : NodeId} {token place : NodeId → Prop}

/-- Every place has a trie, and whatever its cases and its trie name is a token or a place. -/
structure Sealed (token place : NodeId → Prop) (d : Draft) : Prop where
  isSome (id : NodeId) : place id → (d.trie? id).isSome
  cases (id : NodeId) : place id → ∀ case ∈ d.casesOf id, ∀ x ∈ case, token x ∨ place x
  tries (id : NodeId) (t : Trie) : place id → d.trie? id = some t →
    t.Over (fun x => token x ∨ place x) place

/-- The places, and the nodes that were added. -/
def WithNew (place : NodeId → Prop) (d d' : Draft) (x : NodeId) : Prop :=
  place x ∨ d.nodes.size ≤ x ∧ x < d'.nodes.size

theorem lt_size_of_isSome_trie? (h : (d.trie? id).isSome) : id < d.nodes.size := by
  obtain ⟨t, ht⟩ := Option.isSome_iff_exists.1 h
  exact lt_size_of_trie? ht

theorem Sealed.lt_size (h : Sealed token place d) (hid : place id) : id < d.nodes.size :=
  lt_size_of_isSome_trie? (h.isSome id hid)

theorem or_withNew {x : NodeId} (hx : token x ∨ place x) : token x ∨ WithNew place d d' x :=
  hx.imp_right .inl

/-! ### Removing left recursion -/

/-- The symbols of the cases of a medium whose left recursion is removed. -/
theorem mem_unrolledCases_cases {x : NodeId} {case : List NodeId} {start : Nat}
    (hc : case ∈ unrolledCases (d.baseCases id) start) (hx : x ∈ case) :
    (∃ case ∈ d.casesOf id, x ∈ case) ∨ start ≤ x ∧ x < start + (d.baseCases id).length := by
  rcases mem_unrolledCases.1 hc with hc | ⟨i, hi, rfl⟩
  · exact .inl ⟨case, List.mem_of_mem_filter hc, hx⟩
  · rcases List.mem_append.1 hx with hx | hx
    · exact .inl ⟨_, List.mem_of_mem_filter (List.getElem_mem hi), hx⟩
    · rw [List.mem_singleton.1 hx]
      exact .inr ⟨Nat.le_add_right _ _, Nat.add_lt_add_left hi _⟩

theorem mem_tailCases_cases {x tail : NodeId} {case : List NodeId}
    (hc : case ∈ tailCases ((d.recursiveCases id).map (·.drop 1)) tail) (hx : x ∈ case) :
    (∃ case ∈ d.casesOf id, x ∈ case) ∨ x = tail := by
  obtain ⟨_, ht, hcase⟩ := mem_tailCases.1 hc
  obtain ⟨whole, hw, rfl⟩ := List.mem_map.1 ht
  have hdrop (hx : x ∈ whole.drop 1) : ∃ case ∈ d.casesOf id, x ∈ case :=
    ⟨whole, List.mem_of_mem_filter hw, List.mem_of_mem_drop hx⟩
  rcases hcase with rfl | rfl
  · rcases List.mem_append.1 hx with hx | hx
    · exact .inl (hdrop hx)
    · exact .inr (List.mem_singleton.1 hx)
  · exact .inl (hdrop hx)

theorem Sealed.removeFromMedium (h : Sealed token place d) (hu : d.Unfactorized)
    (hr : d.removeFromMedium id = .ok d') :
    ∃ place', (∀ x, place x → place' x) ∧ Sealed token place' d' := by
  have hu' := hu.of_removal hr
  have hempty {place' : NodeId → Prop} (i : NodeId) (t : Trie) (_ : place' i)
      (ht : d'.trie? i = some t) : t.Over (fun x => token x ∨ place' x) place' :=
    hu'.trie_empty i t ht ▸ Trie.over_empty _ _
  have hkeeps := keeps_removeFromMedium hr
  have hsome {i : NodeId} (hi : place i) : (d'.trie? i).isSome := by
    obtain ⟨t, ht⟩ := Option.isSome_iff_exists.1 (h.isSome i hi)
    have hm := hu.medium i t ht
    refine isSome_trie?_of_isMedium ?_
    rwa [hkeeps.isMedium (lt_size_of_isMedium hm)]
  rcases removeFromMedium_cases hr with ⟨-, rfl⟩ | ⟨-, -, d₁, ht, rfl⟩
  · exact ⟨place, fun _ hx => hx, h⟩
  obtain ⟨d₂, hd₂⟩ : ∃ d₂, d₂ = d₁.setCases id (unrolledCases (d.baseCases id) d.nodes.size) :=
    ⟨_, rfl⟩
  have hsize : d₂.nodes.size = d.nodes.size + (d.baseCases id).length := by
    rw [hd₂, size_setCases, ht.size]
  rw [← hd₂] at hempty hsome ⊢
  by_cases hid : place id
  · -- the tails that were made become places themselves
    have hnamed {x : NodeId} (hx : ∃ case ∈ d.casesOf id, x ∈ case) :
        token x ∨ WithNew place d d₂ x := by
      obtain ⟨case, hc, hx⟩ := hx
      exact or_withNew (h.cases id hid case hc x hx)
    refine ⟨WithNew place d d₂, fun _ => .inl, fun i hi => ?_, fun i hi case hc x hx => ?_, hempty⟩
    · rcases hi with hi | ⟨hle, hlt⟩
      · exact hsome hi
      · obtain ⟨k, rfl⟩ := Nat.exists_eq_add_of_le hle
        obtain ⟨name, hn⟩ := ht.tail k (Nat.lt_of_add_lt_add_left (Nat.lt_of_lt_of_eq hlt hsize))
        rw [hd₂, trie?_setCases, trie?, hn]
        rfl
    · rw [hd₂] at hc
      rcases mem_casesOf_setCases hc with hc | hc
      · exact (mem_unrolledCases_cases hc hx).elim hnamed (fun hnew => .inr (.inr (hsize ▸ hnew)))
      · obtain ⟨m, hm⟩ := exists_shape? (lt_size_of_mem_casesOf hc)
        rw [casesOf_of_shape? hm] at hc
        rcases ht.shape?_cases hm with hm' | ⟨k, hk, rfl, name, rfl⟩
        · rw [← casesOf_of_shape? hm'] at hc
          rcases hi with hi | ⟨hle, -⟩
          · exact or_withNew (h.cases i hi case hc x hx)
          · exact absurd (lt_size_of_shape? hm') (Nat.not_lt.2 hle)
        · rcases mem_tailCases_cases hc hx with hx | rfl
          · exact hnamed hx
          · exact .inr (.inr ⟨Nat.le_add_right _ _, hsize ▸ Nat.add_lt_add_left hk _⟩)
  · refine ⟨place, fun _ hx => hx, fun i hi => hsome hi, fun i hi case hc x hx => ?_, hempty⟩
    rw [hd₂, casesOf_setCases_of_ne _ (show i ≠ id from fun he => hid (he ▸ hi)),
      ht.grows.casesOf (h.lt_size hi)] at hc
    exact h.cases i hi case hc x hx

/-! ### Factorizing -/

theorem Sprouts.isSome_trie? (h : Sprouts id d d') {i : NodeId} (hi : (d.trie? i).isSome) :
    (d'.trie? i).isSome := by
  obtain ⟨d₁, trie, hs, -, rfl⟩ := h
  obtain ⟨t, ht⟩ := Option.isSome_iff_exists.1 hi
  exact isSome_trie?_setTrie (by rw [hs.grows.trie? ht]; rfl)

theorem Sprouts.isSome_trie?_of_le (h : Sprouts id d d') {i : NodeId} (hle : d.nodes.size ≤ i)
    (hlt : i < d'.nodes.size) : (d'.trie? i).isSome := by
  obtain ⟨m, hm⟩ := exists_shape? hlt
  have hf := h.isFactor hle hm
  obtain ⟨_, _, _, kind⟩ := m
  rw [trie?, hm]
  cases kind with
  | factor t => rfl
  | _ => exact absurd hf Bool.false_ne_true

theorem Sealed.step (h : Sealed token place d) (hs : Step d d') :
    ∃ place', (∀ x, place x → place' x) ∧ Sealed token place' d' := by
  obtain ⟨hsound, hkeeps, id, hm, hsprouts⟩ := hs
  by_cases hid : place id
  · -- the factors that were made become places themselves
    have hnamed {x : NodeId} (hx : d.Mentions id x) : token x ∨ WithNew place d d' x := by
      obtain ⟨case, hc, hx⟩ := hx
      exact or_withNew (h.cases id hid case hc x hx)
    have hover {i : NodeId} {t : Trie} (ht : d'.trie? i = some t)
        (ho : t.Over (d.Mentions id) (d.nodes.size ≤ ·)) :
        t.Over (fun x => token x ∨ WithNew place d d' x) (WithNew place d d') := by
      have hfits := hsound.fits i t ht
      exact ⟨fun e he => hnamed (ho.heads e he),
        fun e he next hn => .inr ⟨ho.continuation e he next hn,
          lt_size_of_isSome_trie? (hfits.continuation e he next hn)⟩,
        fun next hn => .inr ⟨ho.recursion next hn,
          lt_size_of_isSome_trie? (hfits.recursion next hn)⟩⟩
    refine ⟨WithNew place d d', fun _ => .inl, fun i hi => ?_, fun i hi case hc x hx => ?_,
      fun i t hi ht => ?_⟩
    · rcases hi with hi | ⟨hle, hlt⟩
      · exact hsprouts.isSome_trie? (h.isSome i hi)
      · exact hsprouts.isSome_trie?_of_le hle hlt
    · have hc := hsprouts.mem_casesOf hc
      rcases hi with hi | ⟨hle, -⟩
      · exact or_withNew (h.cases i hi case hc x hx)
      · exact absurd (lt_size_of_mem_casesOf hc) (Nat.not_lt.2 hle)
    · rcases hsprouts.trie?_cases hm ht with ⟨-, ho⟩ | ⟨-, hold⟩ | ⟨hle, ho | ⟨tails, htails, rfl⟩⟩
      · exact hover ht ho
      · rcases hi with hi | ⟨hle, -⟩
        · exact (h.tries i t hi hold).imp (fun _ => or_withNew) (fun _ => .inl)
        · have hlt : i < d.nodes.size := lt_size_of_isSome_trie? (by rw [hold]; rfl)
          exact absurd hlt (Nat.not_lt.2 hle)
      · exact hover ht ho
      · have hself : WithNew place d d' i :=
          .inr ⟨hle, lt_size_of_isSome_trie? (by rw [ht]; rfl)⟩
        have hlt := (hsound.fits i _ ht).heads_lt (tails, some i) List.mem_cons_self
        refine ⟨fun e he => ?_, fun e he next hn => ?_, fun _ hn => nomatch hn⟩
        · cases List.mem_singleton.1 he
          exact .inr (.inr ⟨htails, hlt⟩)
        · cases List.mem_singleton.1 he
          cases hn
          exact hself
  · refine ⟨place, fun _ hx => hx, fun i hi => hsprouts.isSome_trie? (h.isSome i hi),
      fun i hi case hc => h.cases i hi case (hsprouts.mem_casesOf hc), fun i t hi ht => ?_⟩
    rcases hsprouts.trie?_cases hm ht with ⟨rfl, -⟩ | ⟨-, hold⟩ | ⟨hle, -⟩
    · exact absurd hi hid
    · exact h.tries i t hi hold
    · exact absurd (h.lt_size hi) (Nat.not_lt.2 hle)

/-- However left recursion is handled, factorization leaves the places sealed, with some more. -/
theorem Sealed.factorizeAll (h : Sealed token place d) (hd : d.Sound) (hu : d.Unfactorized)
    {options : GrammarOptions} (hf : d.factorizeAll options = .ok d') :
    ∃ place', (∀ x, place x → place' x) ∧ Sealed token place' d' := by
  obtain ⟨d₁, hd₁, -, hsteps⟩ := exists_steps hd hf
  clear hf
  induction hsteps with
  | refl =>
    rcases hd₁ with rfl | hr
    · exact ⟨place, fun _ hx => hx, h⟩
    · have hone : ∀ id ∈ d.mediumIds, ∀ x y : Draft,
          (x.Unfactorized ∧ ∃ place', (∀ x, place x → place' x) ∧ Sealed token place' x) →
            x.removeFromMedium id = .ok y →
              y.Unfactorized ∧ ∃ place', (∀ x, place x → place' x) ∧ Sealed token place' y := by
        rintro id - x y ⟨hx, place₁, hsub, hsealed⟩ hy
        obtain ⟨place₂, hsub', hsealed'⟩ := hsealed.removeFromMedium hx hy
        exact ⟨hx.of_removal hy, place₂, fun _ hp => hsub' _ (hsub _ hp), hsealed'⟩
      exact (Fault.foldlM_keeps hone ⟨hu, place, fun _ hx => hx, h⟩ hr).2
  | tail _ hstep ih =>
    obtain ⟨place₁, hsub, hsealed⟩ := ih
    obtain ⟨place₂, hsub', hsealed'⟩ := hsealed.step hstep
    exact ⟨place₂, fun _ hp => hsub' _ (hsub _ hp), hsealed'⟩

end Syntagma.Draft
