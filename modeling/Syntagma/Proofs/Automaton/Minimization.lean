import Syntagma.Automaton.Minimal
import Syntagma.Proofs.Automaton.Arena
import Syntagma.Proofs.Automaton.Discovery
import Syntagma.Proofs.Dictionary

/-! Minimization. Every state keeps its links and its token under another number, so the published
states lead on and accept as the states did that they were made from. This is so for every start: a
start that was merged into another state goes on as that state does. -/

namespace Syntagma

namespace FiniteState

theorem link?_mapTargets (f : StateId → StateId) (s : FiniteState) (k : String) :
    (s.mapTargets f).link? k = (s.link? k).map f := by
  unfold link? mapTargets
  cases s.links with
  | none => rfl
  | some links => exact links.get?_mapValues f k

theorem mem_targets_of_link? {s : FiniteState} {k : String} {t : StateId} (h : s.link? k = some t) :
    t ∈ s.targets := by
  unfold link? at h
  unfold targets linkList
  cases hl : s.links with
  | none => exact nomatch hl ▸ h
  | some links =>
    rw [hl] at h
    exact List.mem_map.2 ⟨(k, t), Dictionary.mem_entries_iff.2 h, rfl⟩

theorem exists_link?_of_mem_targets {s : FiniteState} {t : StateId} (h : t ∈ s.targets) :
    ∃ k, s.link? k = some t := by
  unfold targets linkList at h
  unfold link?
  cases hl : s.links with
  | none => simp [hl] at h
  | some links =>
    rw [hl] at h
    obtain ⟨e, he, rfl⟩ := List.mem_map.1 h
    exact ⟨e.1, Dictionary.mem_entries_iff.1 he⟩

end FiniteState

namespace Minimal

theorem link?_publish (s : DraftState) (k : String) : (publish s).link? k = s.links.get? k := by
  unfold FiniteState.link? publish
  cases h : s.links.isEmpty with
  | false => rfl
  | true =>
    have hnil : s.links.entries = [] := List.isEmpty_iff.1 h
    simp [Dictionary.get?, hnil, Dictionary.lookup]

/-! ### Rounds of merging -/

/-- A stage of merging in which every state of the arena has a live state to stand for it, with the
same token and with links to the same states. A dead state is still equal to the one that stands for
it. -/
structure Stands (a : Arena) (g : Stage) (f : StateId → StateId) : Prop where
  size : g.states.size = a.size
  sizeDead : g.dead.size = a.size
  le (s : StateId) : f s ≤ s
  live (s : StateId) : s < a.size → g.isLive (f s)
  same (s : StateId) : s < a.size → g.states[s]? = g.states[f s]?
  link (s : StateId) (k : String) : s < a.size →
    (g.states[f s]?).bind (·.link? k) = (a.link? s k).map f
  token (s : StateId) : s < a.size → (g.states[f s]?).bind (·.token) = a.tokenOf s

variable {a : Arena} {g : Stage} {f : StateId → StateId}

theorem Stands.lt (h : Stands a g f) {s : StateId} (hs : s < a.size) : f s < a.size :=
  Nat.lt_of_le_of_lt (h.le s) hs

theorem Stands.root (h : Stands a g f) : f Arena.root = Arena.root := Nat.le_zero.1 (h.le 0)

theorem stands_ofArena (a : Arena) : Stands a (.ofArena a) id where
  size := by simp [Stage.ofArena]
  sizeDead := by simp [Stage.ofArena]
  le s := Nat.le_refl s
  live s hs := by simp [Stage.isLive, Stage.ofArena, hs]
  same _ _ := rfl
  link s k hs := by
    simp [Stage.ofArena, Array.getElem?_eq_getElem hs, link?_publish, Arena.link?, Arena.linksOf]
  token s hs := by
    simp [Stage.ofArena, Array.getElem?_eq_getElem hs, publish, Arena.tokenOf]

theorem representative_le (g : Stage) (id : StateId) : g.representative id ≤ id := by
  unfold Stage.representative
  cases h : (List.range id).find? _ with
  | none => exact Nat.le_refl id
  | some j => exact Nat.le_of_lt (List.mem_range.1 (List.mem_of_find?_eq_some h))

/-- A representative is live and equal to the state. -/
theorem representative_spec {id : StateId} (hlive : g.isLive id) :
    g.isLive (g.representative id) ∧ g.states[g.representative id]? = g.states[id]? := by
  unfold Stage.representative
  cases h : (List.range id).find? _ with
  | none => exact ⟨hlive, rfl⟩
  | some j =>
    have hj := List.find?_some h
    simp only [Bool.and_eq_true, decide_eq_true_eq] at hj
    exact hj

/-- No live state before the representative is equal to the state. -/
theorem representative_le_of {id j : StateId} (hj : j < id) (hlive : g.isLive j)
    (heq : g.states[j]? = g.states[id]?) : g.representative id ≤ j := by
  unfold Stage.representative
  cases h : (List.range id).find? _ with
  | none =>
    have hno := List.find?_range_eq_none.1 h j hj
    simp [hlive, heq] at hno
  | some i =>
    refine Nat.le_of_not_lt (fun hlt => ?_)
    have hno := (List.find?_range_eq_some.1 h).2.2 j hlt
    simp [hlive, heq] at hno

/-- A representative represents itself. -/
theorem representative_representative {id : StateId} (hlive : g.isLive id) :
    g.representative (g.representative id) = g.representative id := by
  obtain ⟨hlive', heq⟩ := representative_spec hlive
  obtain ⟨hlive'', heq'⟩ := representative_spec hlive'
  have hle := representative_le g id
  have hle' := representative_le g (g.representative id)
  by_cases hlt : g.representative (g.representative id) < id
  · exact Nat.le_antisymm hle' (representative_le_of hlt hlive'' (heq'.trans heq))
  · exact Nat.le_antisymm hle' (Nat.le_trans hle (Nat.le_of_not_lt hlt))

theorem getElem?_redirection (g : Stage) (id : StateId) : g.redirection[id]? =
    if id < g.states.size then some (if g.isLive id then g.representative id else id) else none := by
  unfold Stage.redirection
  rw [Array.getElem?_map, Array.getElem?_range]
  split <;> rfl

/-- A round ends the lives of those states that it sends away. -/
theorem isLive_round (g : Stage) (id : StateId) :
    g.round.1.isLive id = (g.isLive id && g.redirection[id]? == some id) := by
  unfold Stage.isLive
  simp only [Stage.round, Array.getElem?_mapIdx]
  cases g.dead[id]? with
  | none => rfl
  | some d => cases d <;> cases h : g.redirection[id]? == some id <;> simp [bne, h]

/-- One round sends every state to its representative. -/
theorem Stands.round (ha : a.InRange) (h : Stands a g f) :
    Stands a g.round.1 (fun s => g.representative (f s)) := by
  have hsent (s : StateId) (hs : s < a.size) :
      g.redirection[f s]? = some (g.representative (f s)) := by
    rw [getElem?_redirection, if_pos (h.size ▸ h.lt hs), if_pos (h.live s hs)]
  have hmapped (q : StateId) : g.round.1.states[q]? =
      (g.states[q]?).map (·.mapTargets (fun t => g.redirection[t]?.getD t)) := by
    simp only [Stage.round, Array.getElem?_map]
  have hstate (s : StateId) (hs : s < a.size) : g.round.1.states[g.representative (f s)]? =
      (g.states[f s]?).map (·.mapTargets (fun t => g.redirection[t]?.getD t)) := by
    rw [hmapped, (representative_spec (h.live s hs)).2]
  have hlt (s : StateId) (hs : s < a.size) : g.representative (f s) < a.size :=
    Nat.lt_of_le_of_lt (representative_le g _) (h.lt hs)
  constructor
  · simpa [Stage.round] using h.size
  · simpa [Stage.round] using h.sizeDead
  · exact fun s => Nat.le_trans (representative_le g _) (h.le s)
  · intro s hs
    have hlive := (representative_spec (h.live s hs)).1
    have hself : g.redirection[g.representative (f s)]? = some (g.representative (f s)) := by
      rw [getElem?_redirection, if_pos (h.size ▸ hlt s hs), if_pos hlive,
        representative_representative (h.live s hs)]
    rw [isLive_round, hself, hlive]
    simp
  · intro s hs
    rw [hmapped, hstate s hs, h.same s hs]
  · intro s k hs
    rw [hstate s hs]
    have hold := h.link s k hs
    cases hst : g.states[f s]? with
    | none =>
      rw [hst] at hold
      cases hl : a.link? s k with
      | none => rfl
      | some t => exact nomatch hl ▸ hold
    | some st =>
      rw [hst, Option.bind_some] at hold
      rw [Option.map_some, Option.bind_some, FiniteState.link?_mapTargets, hold]
      cases hl : a.link? s k with
      | none => rfl
      | some t => simp [hsent t (ha s k t hl)]
  · intro s hs
    rw [hstate s hs, ← h.token s hs]
    cases g.states[f s]? <;> rfl

/-- What every round keeps is kept until there is nothing more to merge. -/
theorem settle_keeps (keeps : Stage → Prop) (hround : ∀ g, keeps g → keeps g.round.1)
    (rounds : Nat) (h : keeps g) : keeps (g.settle rounds) := by
  induction rounds generalizing g with
  | zero => exact h
  | succ rounds ih =>
    unfold Stage.settle
    dsimp only
    split
    · exact ih (hround g h)
    · exact h

theorem exists_stands_settle (ha : a.InRange) (rounds : Nat) (h : Stands a g f) :
    ∃ f', Stands a (g.settle rounds) f' :=
  settle_keeps (fun g => ∃ f, Stands a g f) (fun _ ⟨_, hf⟩ => ⟨_, hf.round ha⟩) rounds
    ⟨f, h⟩

/-! ### Numbering -/

theorem mem_targetsOf {states : Array FiniteState} {id t : StateId} :
    t ∈ targetsOf states id ↔ ∃ k, (states[id]?).bind (·.link? k) = some t := by
  unfold targetsOf
  cases states[id]? with
  | none => simp
  | some s => exact ⟨FiniteState.exists_link?_of_mem_targets, fun ⟨k, hk⟩ =>
      FiniteState.mem_targets_of_link? hk⟩

/-- The states that are numbered, in the order of their numbers. -/
def numbered (states : Array FiniteState) (start : StateId) : Array StateId :=
  discover (targetsOf states) states.size start

theorem nodup_numbered {states : Array FiniteState} {start : StateId} :
    (numbered states start).toList.Nodup := nodup_discover

theorem getElem?_numbered_zero {states : Array FiniteState} {start : StateId} :
    (numbered states start)[0]? = some start := getElem?_discover_zero

theorem renumber_eq_map (states : Array FiniteState) (start : StateId) : renumber states start =
    (numbered states start).map (fun id =>
      (states[id]?.getD default).mapTargets (place (numbered states start))) := rfl

theorem getElem?_renumber {states : Array FiniteState} {start id : StateId} {st : FiniteState}
    (hid : id ∈ numbered states start) (hst : states[id]? = some st) :
    (renumber states start)[place (numbered states start) id]? =
      some (st.mapTargets (place (numbered states start))) := by
  rw [renumber_eq_map, Array.getElem?_map, getElem?_place hid, Option.map_some, hst]
  rfl

section Numbered

variable {start : StateId}

/-- A state that stands there leads to states that stand there for others. -/
theorem Stands.exists_of_mem_targetsOf (h : Stands a g f) {id t : StateId} (hid : id < a.size)
    (ht : t ∈ targetsOf g.states id) : ∃ k t', a.link? id k = some t' ∧ f t' = t := by
  obtain ⟨k, hk⟩ := mem_targetsOf.1 ht
  rw [h.same id hid, h.link id k hid] at hk
  obtain ⟨t', hl, he⟩ := Option.map_eq_some_iff.1 hk
  exact ⟨k, t', hl, he⟩

theorem Stands.lt_of_mem_numbered (ha : a.InRange) (h : Stands a g f) (hs : start < a.size) :
    ∀ id ∈ numbered g.states start, id < a.size := by
  refine forall_mem_discover hs (fun id hid t ht => ?_)
  obtain ⟨k, t', hl, rfl⟩ := h.exists_of_mem_targetsOf hid ht
  exact h.lt (ha id k t' hl)

theorem Stands.closed_numbered (ha : a.InRange) (h : Stands a g f) (hs : start < a.size) :
    ∀ id ∈ numbered g.states start, ∀ t ∈ targetsOf g.states id, t ∈ numbered g.states start :=
  closed_discover (fun id hid => h.size ▸ h.lt_of_mem_numbered ha hs id hid)

end Numbered

end Minimal

/-! ### Published states -/

/-- Where the keys lead from a published state, if each of them has a link. -/
def FiniteState.walk? (states : Array FiniteState) : StateId → List String → Option StateId
  | q, [] => some q
  | q, k :: keys => ((states[q]?).bind (·.link? k)).bind (fun next => walk? states next keys)

/-- Published states beside the arena that they were made from. State 0 stands for the start, and
from states that stand for others the same keys lead to states that do so again. -/
structure Minimized (a : Arena) (start : StateId) (states : Array FiniteState)
    (stands : StateId → StateId → Prop) : Prop where
  start : stands start 0
  lt {s q : StateId} : stands s q → q < states.size
  link {s q : StateId} (k : String) : stands s q →
    Option.Rel stands (a.link? s k) ((states[q]?).bind (·.link? k))
  token {s q : StateId} : stands s q → (states[q]?).bind (·.token) = a.tokenOf s

/-- A published state stands for every state that is represented by the one which it was made
from. -/
def Minimal.PublishedFor (a : Arena) (g : Stage) (f : StateId → StateId) (start s q : StateId) :
    Prop :=
  s < a.size ∧ ∃ id ∈ numbered g.states start,
    g.states[id]? = g.states[f s]? ∧ q = place (numbered g.states start) id

theorem Minimal.Stands.minimized {a : Arena} {g : Stage} {f : StateId → StateId} {start : StateId}
    (ha : a.InRange) (hf : Stands a g f) (hs : start < a.size) :
    Minimized a start (renumber g.states start) (PublishedFor a g f start) := by
  have hclosed := hf.closed_numbered ha hs
  have hfirst : (numbered g.states start)[0]? = some start := getElem?_numbered_zero
  have hstate {s q : StateId} (h : PublishedFor a g f start s q) : ∃ st, g.states[f s]? = some st ∧
      (renumber g.states start)[q]? = some (st.mapTargets (place (numbered g.states start))) := by
    obtain ⟨hlt, id, hid, hsame, rfl⟩ := h
    have hthere : f s < g.states.size := hf.size ▸ hf.lt hlt
    have hst : g.states[f s]? = some g.states[f s] := Array.getElem?_eq_getElem hthere
    exact ⟨_, hst, getElem?_renumber hid (hsame.trans hst)⟩
  constructor
  case start =>
    refine ⟨hs, start, Array.mem_of_getElem? hfirst, hf.same start hs, ?_⟩
    exact (place_eq nodup_numbered hfirst).symm
  case lt =>
    intro s q h
    obtain ⟨st, -, hq⟩ := hstate h
    exact (Array.getElem?_eq_some_iff.1 hq).1
  case link =>
    intro s q k h
    obtain ⟨st, hst, hq⟩ := hstate h
    obtain ⟨hlt, id, hid, hsame, -⟩ := h
    have hlink := hf.link s k hlt
    rw [hst, Option.bind_some] at hlink
    rw [hq, Option.bind_some, FiniteState.link?_mapTargets, hlink]
    cases hl : a.link? s k with
    | none => exact .none
    | some t =>
      have ht := ha s k t hl
      refine .some ⟨ht, f t, hclosed id hid (f t) (mem_targetsOf.2 ⟨k, ?_⟩), rfl, rfl⟩
      rw [hsame, hst, Option.bind_some, hlink, hl, Option.map_some]
  case token =>
    intro s q h
    obtain ⟨st, hst, hq⟩ := hstate h
    have htoken := hf.token s h.1
    rw [hst, Option.bind_some] at htoken
    rw [hq, Option.bind_some, ← htoken]
    rfl

theorem exists_minimized {a : Arena} {start : StateId} (ha : a.InRange) (hs : start < a.size) :
    ∃ stands, Minimized a start (minimize a start) stands := by
  obtain ⟨f, hf⟩ := Minimal.exists_stands_settle ha (a.size + 1) (Minimal.stands_ofArena a)
  exact ⟨_, hf.minimized ha hs⟩

namespace Minimized

variable {a : Arena} {start s q : StateId} {states : Array FiniteState}
  {stands : StateId → StateId → Prop}

theorem walk? (h : Minimized a start states stands) (hq : stands s q) (keys : List String) :
    Option.Rel stands (a.walk? s keys) (FiniteState.walk? states q keys) := by
  induction keys generalizing s q with
  | nil => exact .some hq
  | cons k keys ih =>
    rw [Arena.walk?, FiniteState.walk?]
    cases hl : a.link? s k <;> cases hl' : (states[q]?).bind (·.link? k) <;>
      have hlink := hl' ▸ hl ▸ h.link k hq <;> cases hlink
    · exact .none
    · exact ih ‹_›

/-- The published states lead on where the arena does, and only there. -/
theorem exists_walk? (h : Minimized a start states stands) (hq : stands s q) {keys : List String}
    {t : StateId} (hw : a.walk? s keys = some t) :
    ∃ q', FiniteState.walk? states q keys = some q' ∧ stands t q' := by
  have hrel := h.walk? hq keys
  rw [hw] at hrel
  generalize FiniteState.walk? states q keys = r at hrel
  cases hrel with
  | some hlast => exact ⟨_, rfl, hlast⟩

theorem exists_walk?_arena (h : Minimized a start states stands) (hq : stands s q)
    {keys : List String} {q' : StateId} (hw : FiniteState.walk? states q keys = some q') :
    ∃ t, a.walk? s keys = some t ∧ stands t q' := by
  have hrel := h.walk? hq keys
  rw [hw] at hrel
  generalize a.walk? s keys = r at hrel
  cases hrel with
  | some hlast => exact ⟨_, rfl, hlast⟩

end Minimized

/-- From the first published state the same keys lead on as from the start, for as long and to the
same token. -/
theorem walk?_minimize {a : Arena} {start : StateId} (ha : a.InRange) (hs : start < a.size) :
    0 < (minimize a start).size ∧ ∀ keys,
      (FiniteState.walk? (minimize a start) 0 keys).map
          (fun q => ((minimize a start)[q]?).bind (·.token)) =
        (a.walk? start keys).map a.tokenOf := by
  obtain ⟨stands, hmin⟩ := exists_minimized ha hs
  refine ⟨hmin.lt hmin.start, fun keys => ?_⟩
  have hrel := hmin.walk? hmin.start keys
  generalize a.walk? start keys = before at hrel
  generalize FiniteState.walk? (minimize a start) 0 keys = after at hrel
  cases hrel with
  | none => rfl
  | some h => rw [Option.map_some, Option.map_some, hmin.token h]

/-- Two equal ends make the states in front of them equal, and these the start and its double. -/
def doubledChain : Arena := #[
  ⟨.ofList [("a", 1), ("b", 2)], none⟩,
  ⟨.ofList [("c", 3), ("d", 0)], none⟩,
  ⟨.ofList [("c", 4), ("d", 5)], none⟩,
  ⟨.empty, some ⟨"end", "word"⟩⟩,
  ⟨.empty, some ⟨"end", "word"⟩⟩,
  ⟨.ofList [("a", 1), ("b", 2)], none⟩]

theorem walk?_minimize_doubledChain : doubledChain.InRange ∧ (minimize doubledChain 5).size = 4 ∧
    FiniteState.walk? (minimize doubledChain 5) 0 ["b", "d", "a", "c"] = some 2 ∧
    ((minimize doubledChain 5)[2]?).bind (·.token) = some ⟨"end", "word"⟩ := by
  have hrange : doubledChain.InRange := Arena.inRange_of_all (by decide +kernel)
  obtain ⟨-, hsame⟩ := walk?_minimize hrange (by decide : 5 < doubledChain.size)
  have hwalk : FiniteState.walk? (minimize doubledChain 5) 0 ["b", "d", "a", "c"] = some 2 := by
    decide +kernel
  have htoken := hsame ["b", "d", "a", "c"]
  rw [hwalk] at htoken
  exact ⟨hrange, by decide +kernel, hwalk, Option.some.inj (htoken.trans (by decide +kernel))⟩

end Syntagma
