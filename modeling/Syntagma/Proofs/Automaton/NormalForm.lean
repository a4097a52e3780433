import Mathlib.Data.Finset.Card
import Mathlib.Data.Finset.Range
import Syntagma.Proofs.Automaton.Minimization

/-! The normal form that minimization reaches from the root. All states are reached, no two are
equal, none has a map without links, and their numbers are those of a breadth-first search. States in
normal form are minimized to themselves: none is merged with another, and each keeps its number. -/

namespace Syntagma

namespace FiniteState

variable {f : StateId → StateId} {s t : FiniteState} {states : Array FiniteState}

theorem targets_mapTargets (f : StateId → StateId) (s : FiniteState) :
    (s.mapTargets f).targets = s.targets.map f := by
  unfold targets linkList mapTargets
  cases s.links with
  | none => rfl
  | some links => simp [Dictionary.mapValues]

theorem mapTargets_of_forall (h : ∀ x ∈ s.targets, f x = x) : s.mapTargets f = s := by
  obtain ⟨links, token⟩ := s
  cases links with
  | none => rfl
  | some links =>
    show FiniteState.mk (some (links.mapValues f)) token = _
    rw [Dictionary.mapValues_of_forall h]

theorem mapTargets_inj (hf : ∀ x ∈ s.targets, ∀ y ∈ t.targets, f x = f y → x = y)
    (h : s.mapTargets f = t.mapTargets f) : s = t := by
  obtain ⟨links, token⟩ := s
  obtain ⟨links', token'⟩ := t
  obtain ⟨hlinks, rfl⟩ : links.map (·.mapValues f) = links'.map (·.mapValues f) ∧ token = token' :=
    FiniteState.mk.inj h
  cases links <;> cases links' <;> simp only [Option.map_none, Option.map_some, reduceCtorEq,
    Option.some.injEq] at hlinks
  · rfl
  · rw [Dictionary.mapValues_inj hf hlinks]

/-- A state without links has no map. -/
def Linked (s : FiniteState) : Prop := s.links ≠ some .empty

theorem Linked.mapTargets (h : s.Linked) (f : StateId → StateId) : (s.mapTargets f).Linked := by
  obtain ⟨links, token⟩ := s
  cases links with
  | none => nofun
  | some links =>
    intro he
    have hnil : links.entries.map _ = [] := congrArg Dictionary.entries (Option.some.inj he)
    exact h (congrArg some (Dictionary.ext_entries (List.map_eq_nil_iff.1 hnil)))

/-- The state under construction that is published as this one. -/
def draft (s : FiniteState) : DraftState := ⟨s.links.getD .empty, s.token⟩

theorem walk?_append (states : Array FiniteState) (q : StateId) (keys more : List String) :
    walk? states q (keys ++ more) = (walk? states q keys).bind (fun q' => walk? states q' more) := by
  induction keys generalizing q with
  | nil => rfl
  | cons key keys ih =>
    simp only [List.cons_append, walk?, Option.bind_assoc]
    congr 1
    funext st
    congr 1
    funext next
    exact ih next

end FiniteState

namespace Minimal

theorem linked_publish (s : DraftState) : (publish s).Linked := by
  unfold FiniteState.Linked publish
  intro he
  cases h : s.links.isEmpty with
  | true => simp [h] at he
  | false =>
    simp only [h, Bool.false_eq_true, if_false, Option.some.injEq] at he
    simp [he, Dictionary.isEmpty, Dictionary.empty] at h

theorem publish_draft {s : FiniteState} (h : s.Linked) : publish s.draft = s := by
  obtain ⟨links, token⟩ := s
  cases links with
  | none => rfl
  | some links =>
    have hne : links.isEmpty = false := by
      refine Bool.eq_false_iff.2 (fun he => h (congrArg some (Dictionary.ext_entries ?_)))
      exact List.isEmpty_iff.1 he
    simp [publish, FiniteState.draft, hne]

/-! ### No two states alike -/

variable {a : Arena} {g : Stage} {f : StateId → StateId}

/-- No two live states are equal. -/
def Stage.Settled (g : Stage) : Prop :=
  ∀ i j, g.isLive i → g.isLive j → g.states[i]? = g.states[j]? → i = j

def Stage.living (g : Stage) : Finset StateId :=
  (Finset.range g.dead.size).filter (fun id => g.isLive id)

theorem mem_living {id : StateId} : id ∈ g.living ↔ g.isLive id := by
  unfold Stage.living Stage.isLive
  simp only [Finset.mem_filter, Finset.mem_range, and_iff_right_iff_imp]
  intro h
  exact (Array.getElem?_eq_some_iff.1 (eq_of_beq h)).1

theorem lt_of_isLive (hsize : g.dead.size = g.states.size) {id : StateId} (h : g.isLive id) :
    id < g.states.size :=
  hsize ▸ (Array.getElem?_eq_some_iff.1 (eq_of_beq h)).1

/-- A round that changes something ends the life of a state. -/
theorem living_round_ssubset (h : g.round.2 = true) : g.round.1.living ⊂ g.living := by
  refine Finset.ssubset_iff_subset_ne.2 ⟨fun id hid => ?_, fun he => ?_⟩
  · rw [mem_living, isLive_round, Bool.and_eq_true] at hid
    exact mem_living.2 hid.1
  · obtain ⟨id, hid, hsent⟩ := List.any_eq_true.1 h
    have hlive : g.isLive id := by
      rw [getElem?_redirection, if_pos (List.mem_range.1 hid)] at hsent
      by_contra hdead
      simp [hdead] at hsent
    have hround : g.round.1.isLive id := mem_living.1 (he ▸ mem_living.2 hlive)
    rw [isLive_round, Bool.and_eq_true] at hround
    rw [eq_of_beq hround.2] at hsent
    simp at hsent

/-- If nothing changes then no two live states are equal: the later one would be sent to the first. -/
theorem settled_of_unchanged (hsize : g.dead.size = g.states.size) (h : g.round.2 = false) :
    g.Settled := by
  have hself {id : StateId} (hlive : g.isLive id) : g.representative id = id := by
    have hid := lt_of_isLive hsize hlive
    have hsent := List.any_eq_false.1 h id (List.mem_range.2 hid)
    rw [getElem?_redirection, if_pos hid, if_pos hlive] at hsent
    simpa using hsent
  intro i j hi hj he
  rcases Nat.lt_trichotomy i j with hlt | heq | hlt
  · have hle := representative_le_of hlt hi he
    rw [hself hj] at hle
    exact absurd hlt (Nat.not_lt_of_le hle)
  · exact heq
  · have hle := representative_le_of hlt hj he.symm
    rw [hself hi] at hle
    exact absurd hlt (Nat.not_lt_of_le hle)

/-- Where no two live states are equal there is nothing to merge. -/
theorem settle_of_settled (h : g.Settled) (rounds : Nat) : g.settle rounds = g := by
  have hunchanged : g.round.2 = false := by
    refine List.any_eq_false.2 (fun id hid => ?_)
    have hsent : g.redirection[id]? = some id := by
      rw [getElem?_redirection, if_pos (List.mem_range.1 hid)]
      split
      next hlive =>
        obtain ⟨hlive', he⟩ := representative_spec hlive
        rw [h _ _ hlive' hlive he]
      next => rfl
    simp [hsent]
  cases rounds with
  | zero => rfl
  | succ rounds =>
    unfold Stage.settle
    dsimp only
    rw [hunchanged, if_neg Bool.false_ne_true]

theorem settled_settle {rounds : Nat} (hsize : g.dead.size = g.states.size)
    (h : g.living.card < rounds) : (g.settle rounds).Settled := by
  induction rounds generalizing g with
  | zero => omega
  | succ rounds ih =>
    unfold Stage.settle
    dsimp only
    split
    next hchanged =>
      have hless := Finset.card_lt_card (living_round_ssubset hchanged)
      exact ih (by simpa [Stage.round] using hsize) (by omega)
    next hchanged => exact settled_of_unchanged hsize (Bool.eq_false_iff.2 hchanged)

theorem settled_ofArena (a : Arena) : ((Stage.ofArena a).settle (a.size + 1)).Settled := by
  refine settled_settle (by simp [Stage.ofArena]) (Nat.lt_succ_of_le ?_)
  refine (Finset.card_filter_le _ _).trans ?_
  simp [Stage.ofArena]

theorem linked_settle (a : Arena) (rounds : Nat) :
    ∀ s ∈ ((Stage.ofArena a).settle rounds).states, s.Linked := by
  refine settle_keeps (fun g => ∀ s ∈ g.states, s.Linked) (fun g hg s hs => ?_) rounds ?_
  · obtain ⟨before, hbefore, rfl⟩ := Array.mem_map.1 hs
    exact (hg before hbefore).mapTargets _
  · intro s hs
    obtain ⟨draft, -, rfl⟩ := Array.mem_map.1 hs
    exact linked_publish draft

/-- From the root only those states are numbered that stand for states of the arena. -/
theorem Stands.exists_of_mem_numbered (ha : a.InRange) (h : Stands a g f) (hs : 0 < a.size) :
    ∀ id ∈ numbered g.states 0, ∃ s < a.size, f s = id := by
  refine forall_mem_discover ⟨0, hs, h.root⟩ ?_
  rintro _ ⟨s, hs, rfl⟩ t ht
  obtain ⟨k, t', hl, rfl⟩ := h.exists_of_mem_targetsOf (h.lt hs) ht
  exact ⟨t', ha _ k t' hl, rfl⟩

/-! ### Numbered states -/

section Renumbered

variable {states : Array FiniteState} {start id : StateId}

theorem size_renumber (states : Array FiniteState) (start : StateId) :
    (renumber states start).size = (numbered states start).size := by
  rw [renumber_eq_map, Array.size_map]

theorem targetsOf_eq {st : FiniteState} (h : states[id]? = some st) :
    targetsOf states id = st.targets := by
  rw [targetsOf, h]
  rfl

theorem zero_lt_size_renumber : 0 < (renumber states start).size := by
  rw [size_renumber]
  exact (Array.getElem?_eq_some_iff.1 getElem?_numbered_zero).1

/-- A number stands for the state that has its place. -/
theorem exists_place_eq {q : StateId} (hq : q < (renumber states start).size) :
    ∃ id ∈ numbered states start, place (numbered states start) id = q := by
  rw [size_renumber] at hq
  exact ⟨_, Array.getElem_mem hq, place_eq nodup_numbered (Array.getElem?_eq_getElem hq)⟩

variable (hin : ∀ id ∈ numbered states start, id < states.size)
include hin

theorem targetsOf_renumber (hid : id ∈ numbered states start) :
    targetsOf (renumber states start) (place (numbered states start) id) =
      (targetsOf states id).map (place (numbered states start)) := by
  have hst := Array.getElem?_eq_getElem (hin id hid)
  rw [targetsOf_eq (getElem?_renumber hid hst), targetsOf_eq hst, FiniteState.targets_mapTargets]

theorem inRange_renumber : ∀ q < (renumber states start).size,
    ∀ t ∈ targetsOf (renumber states start) q, t < (renumber states start).size := by
  intro q hq t ht
  obtain ⟨id, hid, rfl⟩ := exists_place_eq hq
  rw [targetsOf_renumber hin hid] at ht
  obtain ⟨x, hx, rfl⟩ := List.mem_map.1 ht
  rw [size_renumber]
  exact place_lt (closed_discover hin id hid x hx)

theorem reached_renumber : ∀ q < (renumber states start).size,
    ∃ keys, FiniteState.walk? (renumber states start) 0 keys = some q := by
  intro q hq
  obtain ⟨id, hid, rfl⟩ := exists_place_eq hq
  let good (id : StateId) : Prop := id ∈ numbered states start ∧ ∃ keys,
    FiniteState.walk? (renumber states start) 0 keys = some (place (numbered states start) id)
  suffices h : good id from h.2
  refine forall_mem_discover (⟨?_, [], ?_⟩ : good start) ?_ id hid
  · exact Array.mem_of_getElem? getElem?_numbered_zero
  · rw [place_eq nodup_numbered getElem?_numbered_zero, FiniteState.walk?]
  · rintro id ⟨hid, keys, hwalk⟩ t ht
    obtain ⟨key, hlink⟩ := mem_targetsOf.1 ht
    obtain ⟨st, hst, hlink⟩ := Option.bind_eq_some_iff.1 hlink
    refine ⟨closed_discover hin id hid t ht, keys ++ [key], ?_⟩
    rw [FiniteState.walk?_append, hwalk, Option.bind_some, FiniteState.walk?,
      getElem?_renumber hid hst, Option.bind_some, FiniteState.link?_mapTargets, hlink]
    rfl

theorem nodup_renumber (h : ∀ i ∈ numbered states start, ∀ j ∈ numbered states start,
    states[i]? = states[j]? → i = j) : (renumber states start).toList.Nodup := by
  rw [renumber_eq_map, Array.toList_map]
  refine List.Nodup.map_on (fun i hi j hj he => ?_) nodup_numbered
  have hi : i ∈ numbered states start := by simpa using hi
  have hj : j ∈ numbered states start := by simpa using hj
  have hsi := Array.getElem?_eq_getElem (hin i hi)
  have hsj := Array.getElem?_eq_getElem (hin j hj)
  rw [hsi, hsj, Option.getD_some, Option.getD_some] at he
  refine h i hi j hj ?_
  rw [hsi, hsj, FiniteState.mapTargets_inj (fun x hx y hy => ?_) he]
  exact place_inj (closed_discover hin i hi x (targetsOf_eq hsi ▸ hx))
    (closed_discover hin j hj y (targetsOf_eq hsj ▸ hy))

theorem linked_renumber (h : ∀ s ∈ states, s.Linked) : ∀ s ∈ renumber states start, s.Linked := by
  intro s hs
  obtain ⟨id, hid, rfl⟩ := Array.mem_map.1 hs
  rw [Array.getElem?_eq_getElem (hin id hid), Option.getD_some]
  exact (h _ (Array.getElem_mem (hin id hid))).mapTargets _

theorem breadthFirst_renumber :
    BreadthFirst (targetsOf (renumber states start)) (renumber states start).size := by
  rw [size_renumber]
  exact breadthFirst_places hin (fun id hid => targetsOf_renumber hin hid)

end Renumbered

/-! ### Normal forms -/

/-- States of which the first is the start: all of them can be reached from it and are numbered as a
breadth-first search finds them that takes the links of each state in the order of their keys, no two
have the same token and the same links, and those without links have no map. -/
structure Normal (states : Array FiniteState) : Prop where
  start : 0 < states.size
  inRange : ∀ q < states.size, ∀ t ∈ targetsOf states q, t < states.size
  reached : ∀ q < states.size, ∃ keys, FiniteState.walk? states 0 keys = some q
  distinct : states.toList.Nodup
  linked : ∀ s ∈ states, s.Linked
  breadthFirst : BreadthFirst (targetsOf states) states.size

theorem normal_minimize {a : Arena} (ha : a.InRange) (hpos : 0 < a.size) :
    Normal (minimize a 0) := by
  obtain ⟨f, hf⟩ := exists_stands_settle ha (a.size + 1) (stands_ofArena a)
  have hsettled := settled_ofArena a
  have hlinked := linked_settle a (a.size + 1)
  unfold minimize
  generalize (Stage.ofArena a).settle (a.size + 1) = g at hf hsettled hlinked
  have hstate := hf.exists_of_mem_numbered ha hpos
  have hin : ∀ id ∈ numbered g.states 0, id < g.states.size := by
    intro id hid
    obtain ⟨s, hs, rfl⟩ := hstate id hid
    exact hf.size ▸ hf.lt hs
  have hlive : ∀ id ∈ numbered g.states 0, g.isLive id := by
    intro id hid
    obtain ⟨s, hs, rfl⟩ := hstate id hid
    exact hf.live s hs
  exact {
    start := zero_lt_size_renumber
    inRange := inRange_renumber hin
    reached := reached_renumber hin
    distinct := nodup_renumber hin (fun i hi j hj => hsettled i j (hlive i hi) (hlive j hj))
    linked := linked_renumber hin hlinked
    breadthFirst := breadthFirst_renumber hin }

namespace Normal

variable {states : Array FiniteState}

theorem ofArena_drafts (h : Normal states) :
    Stage.ofArena (states.map FiniteState.draft) = ⟨states, Array.replicate states.size false⟩ := by
  have hmap : (states.map FiniteState.draft).map publish = states := by
    rw [Array.map_map]
    conv_rhs => rw [← Array.map_id states]
    exact Array.map_congr_left (fun s hs => publish_draft (h.linked s hs))
  rw [Stage.ofArena, hmap, Array.size_map]

theorem renumber_eq (h : Normal states) : renumber states 0 = states := by
  have horder : numbered states 0 = Array.range states.size :=
    h.breadthFirst.discover_eq h.start h.inRange
  have hplace (id : StateId) (hid : id < states.size) : place (numbered states 0) id = id := by
    refine place_eq nodup_numbered ?_
    rw [horder, Array.getElem?_range, if_pos hid]
  apply Array.ext_getElem?
  intro i
  by_cases hi : i < states.size
  · have hst := Array.getElem?_eq_getElem hi
    have hmem : i ∈ numbered states 0 := by
      rw [horder]
      exact Array.mem_range.2 hi
    have hnew := getElem?_renumber hmem hst
    rw [hplace i hi] at hnew
    rw [hnew, hst, FiniteState.mapTargets_of_forall]
    exact fun t ht => hplace t (h.inRange i hi t (targetsOf_eq hst ▸ ht))
  · rw [Array.getElem?_eq_none (Nat.le_of_not_lt hi), Array.getElem?_eq_none]
    rw [size_renumber, horder, Array.size_range]
    exact Nat.le_of_not_lt hi

theorem settled (h : Normal states) :
    (⟨states, Array.replicate states.size false⟩ : Stage).Settled := by
  intro i j hi hj he
  have hi : i < states.size := lt_of_isLive (by simp) hi
  refine (List.getElem?_inj (by simpa using hi) h.distinct).1 ?_
  simpa using he

/-- States in normal form are minimized to themselves. -/
theorem minimize_drafts (h : Normal states) :
    minimize (states.map FiniteState.draft) 0 = states := by
  rw [minimize, h.ofArena_drafts, settle_of_settled h.settled, h.renumber_eq]

end Normal

/-- Minimizing from the root reaches the normal form, and minimizing again changes nothing. -/
theorem minimize_normalizes {a : Arena} (ha : a.InRange) (hpos : 0 < a.size) :
    Normal (minimize a 0) ∧
      minimize ((minimize a 0).map FiniteState.draft) 0 = minimize a 0 :=
  ⟨normal_minimize ha hpos, (normal_minimize ha hpos).minimize_drafts⟩

theorem minimize_normalizes_doubledChain : doubledChain.InRange ∧ 0 < doubledChain.size ∧
    minimize doubledChain 0 = #[
      ⟨some (.ofList [("a", 1), ("b", 1)]), none⟩,
      ⟨some (.ofList [("c", 2), ("d", 0)]), none⟩,
      ⟨none, some ⟨"end", "word"⟩⟩] ∧
    Normal (minimize doubledChain 0) ∧
      minimize ((minimize doubledChain 0).map FiniteState.draft) 0 = minimize doubledChain 0 := by
  have hrange : doubledChain.InRange := Arena.inRange_of_all (by decide +kernel)
  have hpos : 0 < doubledChain.size := by decide
  exact ⟨hrange, hpos, by decide +kernel, minimize_normalizes hrange hpos⟩

end Minimal

end Syntagma
