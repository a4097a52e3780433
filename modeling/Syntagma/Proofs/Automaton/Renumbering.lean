import Syntagma.Proofs.Automaton.NormalForm

/-! Minimization does not depend on the numbers of the states. Which states it merges is a property
of the links: the states merged with each other are those that are alike, whichever of them is kept.
A normal form is determined by its states up to their numbers, since breadth-first numbering leaves
no choice. An arena whose states are listed in another order, or from which states are left out that
the root does not lead to, is therefore minimized to the same states. -/

namespace Syntagma

namespace FiniteState

variable {s t : FiniteState}

theorem Linked.getD_links_eq (hs : s.Linked) (ht : t.Linked)
    (h : s.links.getD .empty = t.links.getD .empty) : s.links = t.links := by
  unfold Linked at hs ht
  cases hl : s.links <;> cases hl' : t.links <;> simp_all [eq_comm]

theorem link?_eq_get? (s : FiniteState) (k : String) :
    s.link? k = (s.links.getD .empty).get? k := by
  unfold link?
  cases s.links <;> rfl

theorem targets_eq_values (s : FiniteState) : s.targets = (s.links.getD .empty).values := by
  unfold targets linkList
  cases s.links <;> rfl

/-- A published state is determined by its links and its token. -/
theorem Linked.ext (hs : s.Linked) (ht : t.Linked) (hlink : ∀ k, s.link? k = t.link? k)
    (htoken : s.token = t.token) : s = t := by
  have hlinks : s.links = t.links := by
    refine hs.getD_links_eq ht (Dictionary.ext_get? (fun k => ?_))
    rw [← link?_eq_get?, ← link?_eq_get?, hlink]
  cases s
  cases t
  cases hlinks
  cases htoken
  rfl

/-- Where two arrays have the same links and the same token, they have the same state. -/
theorem getElem?_eq_of_lookups {A B : Array FiniteState} {i j : StateId}
    (hA : ∀ s ∈ A, s.Linked) (hB : ∀ s ∈ B, s.Linked) (hi : i < A.size) (hj : j < B.size)
    (hlink : ∀ k, (A[i]?).bind (·.link? k) = (B[j]?).bind (·.link? k))
    (htoken : (A[i]?).bind (·.token) = (B[j]?).bind (·.token)) : A[i]? = B[j]? := by
  rw [Array.getElem?_eq_getElem hi, Array.getElem?_eq_getElem hj] at *
  rw [(hA _ (Array.getElem_mem hi)).ext (hB _ (Array.getElem_mem hj)) hlink htoken]

end FiniteState

/-! ### Merged states -/

/-- States that merging makes equal: those with the same token and the same keys whose links lead to
states that are alike. Two loops without a state in common have no states that are alike, although
the same keys lead on from them. -/
inductive Arena.Alike (a : Arena) : StateId → StateId → Prop
  | refl (s : StateId) : a.Alike s s
  | step {s t : StateId} (token : a.tokenOf s = a.tokenOf t)
      (keys : ∀ k, (a.link? s k).isSome = (a.link? t k).isSome)
      (targets : ∀ k s' t', a.link? s k = some s' → a.link? t k = some t' → a.Alike s' t') :
      a.Alike s t

namespace Minimal

variable {a : Arena} {g : Stage} {f : StateId → StateId} {s t q r : StateId}

/-- Only states that are alike have the same state to stand for them. -/
def MergesAlike (a : Arena) (f : StateId → StateId) : Prop :=
  ∀ s < a.size, ∀ t < a.size, f s = f t → a.Alike s t

/-- States that are equal by now are alike: their links lead to states that were merged before. -/
theorem Stands.alike_of_eq (ha : a.InRange) (hf : Stands a g f) (hm : MergesAlike a f)
    (hs : s < a.size) (ht : t < a.size) (he : g.states[f s]? = g.states[f t]?) : a.Alike s t := by
  have hlink (k : String) : (a.link? s k).map f = (a.link? t k).map f := by
    rw [← hf.link s k hs, he, hf.link t k ht]
  refine .step ?_ (fun k => ?_) (fun k s' t' hl hl' => ?_)
  · rw [← hf.token s hs, he, hf.token t ht]
  · simpa using congrArg Option.isSome (hlink k)
  · have hsame := hlink k
    rw [hl, hl', Option.map_some, Option.map_some, Option.some.injEq] at hsame
    exact hm s' (ha s k s' hl) t' (ha t k t' hl') hsame

theorem Stands.mergesAlike_round (ha : a.InRange) (hf : Stands a g f) (hm : MergesAlike a f) :
    MergesAlike a (fun s => g.representative (f s)) := by
  intro s hs t ht (he : g.representative (f s) = g.representative (f t))
  refine hf.alike_of_eq ha hm hs ht ?_
  rw [← (representative_spec (hf.live s hs)).2, he, (representative_spec (hf.live t ht)).2]

theorem exists_mergesAlike_settle (ha : a.InRange) (rounds : Nat) :
    ∃ f, Stands a ((Stage.ofArena a).settle rounds) f ∧ MergesAlike a f :=
  settle_keeps (fun g => ∃ f, Stands a g f ∧ MergesAlike a f)
    (fun _ ⟨_, hf, hm⟩ => ⟨_, hf.round ha, hf.mergesAlike_round ha hm⟩) rounds
    ⟨id, stands_ofArena a, fun s _ t _ (he : s = t) => he ▸ .refl s⟩

/-- Once nothing is left to merge, states that are alike have been merged. -/
theorem Stands.eq_of_alike (ha : a.InRange) (hf : Stands a g f) (hsettled : g.Settled)
    (hlinked : ∀ s ∈ g.states, s.Linked) (h : a.Alike s t) (hs : s < a.size) (ht : t < a.size) :
    f s = f t := by
  induction h with
  | refl s => rfl
  | @step s t token keys targets ih =>
    -- the targets are merged by induction, so the states themselves are equal by now
    have hthere (q : StateId) (hq : q < a.size) : f q < g.states.size := hf.size ▸ hf.lt hq
    refine hsettled _ _ (hf.live s hs) (hf.live t ht) (FiniteState.getElem?_eq_of_lookups hlinked
      hlinked (hthere s hs) (hthere t ht) (fun k => ?_) ?_)
    · rw [hf.link s k hs, hf.link t k ht]
      have hkey := keys k
      cases hl : a.link? s k with
      | none =>
        rw [hl, Option.isSome_none, eq_comm, Option.isSome_eq_false_iff, Option.isNone_iff_eq_none]
          at hkey
        rw [hkey]
      | some s' =>
        rw [hl, Option.isSome_some, eq_comm, Option.isSome_iff_exists] at hkey
        obtain ⟨t', hl'⟩ := hkey
        rw [hl', Option.map_some, Option.map_some, ih k s' t' hl hl' (ha s k s' hl) (ha t k t' hl')]
    · rw [hf.token s hs, hf.token t ht, token]

/-- The published state of a state that is reached was made from the one that stands for it. -/
theorem Stands.eq_place (ha : a.InRange) (hf : Stands a g f) (hsettled : g.Settled)
    (hpos : 0 < a.size) (h : PublishedFor a g f 0 s q) :
    f s ∈ numbered g.states 0 ∧ q = place (numbered g.states 0) (f s) := by
  obtain ⟨hs, id, hid, hsame, rfl⟩ := h
  obtain ⟨s', hs', rfl⟩ := hf.exists_of_mem_numbered ha hpos id hid
  have he : f s' = f s := hsettled _ _ (hf.live s' hs') (hf.live s hs) hsame
  exact ⟨he ▸ hid, he ▸ rfl⟩

end Minimal

/-- Published states of which two are the same exactly if the states that they stand for are
alike. -/
structure MinimizedAlike (a : Arena) (states : Array FiniteState)
    (stands : StateId → StateId → Prop) : Prop extends Minimized a 0 states stands where
  same_iff {s t q r : StateId} : stands s q → stands t r → (q = r ↔ a.Alike s t)

theorem exists_minimizedAlike {a : Arena} (ha : a.InRange) (hpos : 0 < a.size) :
    ∃ stands, MinimizedAlike a (minimize a 0) stands := by
  obtain ⟨f, hf, hm⟩ := Minimal.exists_mergesAlike_settle ha (a.size + 1)
  have hsettled := Minimal.settled_ofArena a
  refine ⟨_, hf.minimized ha hpos, fun {s t q r} hq hr => ?_⟩
  obtain ⟨hmem, hplace⟩ := hf.eq_place ha hsettled hpos hq
  obtain ⟨hmem', hplace'⟩ := hf.eq_place ha hsettled hpos hr
  rw [hplace, hplace']
  constructor
  · exact fun he => hm s hq.1 t hr.1 (place_inj hmem hmem' he)
  · intro h
    rw [hf.eq_of_alike ha hsettled (Minimal.linked_settle a _) h hq.1 hr.1]

/-! ### Normal forms with the same states -/

section Related

variable {α β γ : Type} {R : α → β → Prop} {S : α → γ → Prop} {x : Option α} {y : Option β}
  {z : Option γ}

theorem rel_flip (h : Option.Rel R x y) : Option.Rel (flip R) y x := by
  cases h with
  | none => exact .none
  | some h => exact .some h

theorem rel_through (h : Option.Rel R x y) (h' : Option.Rel S x z) :
    Option.Rel (fun b c => ∃ a, R a b ∧ S a c) y z := by
  cases h with
  | none => cases h' with | none => exact .none
  | some h => cases h' with | some h' => exact .some ⟨_, h, h'⟩

end Related

namespace Minimal

/-- Published states that correspond one to one. The first ones correspond to each other, and the
links of states that do so have the same keys and lead to states that do so again. -/
structure Matching (A B : Array FiniteState) (R : StateId → StateId → Prop) : Prop where
  start : R 0 0
  same_iff {q r q' r' : StateId} : R q r → R q' r' → (q = q' ↔ r = r')
  link {q r : StateId} (k : String) : R q r →
    Option.Rel R ((A[q]?).bind (·.link? k)) ((B[r]?).bind (·.link? k))
  token {q r : StateId} : R q r → (A[q]?).bind (·.token) = (B[r]?).bind (·.token)

namespace Matching

variable {A B : Array FiniteState} {R : StateId → StateId → Prop} {q r : StateId}

theorem symm (h : Matching A B R) : Matching B A (flip R) where
  start := h.start
  same_iff hq hr := (h.same_iff hq hr).symm
  link k hq := rel_flip (h.link k hq)
  token hq := (h.token hq).symm

theorem targetsOf (h : Matching A B R) (hq : R q r) :
    List.Forall₂ R (targetsOf A q) (targetsOf B r) := by
  have hvalues (states : Array FiniteState) (id : StateId) : Minimal.targetsOf states id =
      (((states[id]?).bind (·.links)).getD .empty).values := by
    unfold Minimal.targetsOf
    cases states[id]? with
    | none => rfl
    | some s => exact s.targets_eq_values
  have hlookup (states : Array FiniteState) (id : StateId) (k : String) :
      (states[id]?).bind (·.link? k) = (((states[id]?).bind (·.links)).getD .empty).get? k := by
    cases states[id]? with
    | none => rfl
    | some s => exact s.link?_eq_get? k
  rw [hvalues, hvalues]
  refine Dictionary.forall₂_values (fun k => ?_)
  rw [← hlookup, ← hlookup]
  exact h.link k hq

/-- As long as the numbers agree, the same numbers are met next. -/
theorem met (h : Matching A B R) {i : Nat} (hself : ∀ j < i, R j j) :
    List.Forall₂ R (0 :: (List.range i).flatMap (Minimal.targetsOf A)).eraseDups
      (0 :: (List.range i).flatMap (Minimal.targetsOf B)).eraseDups := by
  refine Distinct.forall₂_eraseDups (.cons h.start ?_) h.same_iff
  refine List.rel_flatMap (List.forall₂_same.2 (fun j hj => ?_)) (fun _ _ => h.targetsOf)
  exact hself j (List.mem_range.1 hj)

theorem self (h : Matching A B R) (hA : Normal A) (hB : Normal B) (i : Nat) (hi : i < A.size)
    (hi' : i < B.size) : R i i := by
  induction i using Nat.strongRecOn with
  | ind i ih =>
    -- on both sides the number at place `i` is met before its links are looked at
    have hmet := h.met (fun j hj => ih j hj (by omega) (by omega))
    obtain ⟨met, him, he⟩ := hA.breadthFirst i hi
    obtain ⟨met', him', he'⟩ := hB.breadthFirst i hi'
    rw [he, he'] at hmet
    have hnth := hmet.get (i := i) (by simpa using him) (by simpa using him')
    simpa using hnth

/-- Were there more states on the other side, then the first one of them would correspond to one that
corresponds to itself. -/
theorem size_le (h : Matching A B R) (hA : Normal A) (hB : Normal B) : B.size ≤ A.size := by
  refine Nat.le_of_not_lt (fun hlt => ?_)
  have hself (i : Nat) (hi : i < A.size) : R i i := h.self hA hB i hi (by omega)
  obtain ⟨met, him, he⟩ := hB.breadthFirst A.size hlt
  have hmet := h.met hself
  rw [he] at hmet
  have hplace := hmet.length_eq ▸ (by simpa using him : A.size < (List.range met).length)
  obtain ⟨q, hq, hr⟩ : ∃ q ∈ (0 :: (List.range A.size).flatMap (Minimal.targetsOf A)).eraseDups,
      R q A.size :=
    ⟨_, List.getElem_mem hplace, by simpa using hmet.get hplace (by simpa using him)⟩
  have hin : q < A.size := by
    rcases List.mem_cons.1 (List.mem_eraseDups.1 hq) with rfl | hq
    · exact hA.start
    · obtain ⟨j, hj, hq⟩ := List.mem_flatMap.1 hq
      exact hA.inRange j (List.mem_range.1 hj) q hq
  have hself : A.size = q := (h.same_iff hr (hself q hin)).1 rfl
  exact Nat.ne_of_lt hin hself.symm

end Matching

/-- Normal forms whose states correspond one to one are equal. -/
theorem Normal.eq_of_matching {A B : Array FiniteState} {R : StateId → StateId → Prop}
    (hA : Normal A) (hB : Normal B) (h : Matching A B R) : A = B := by
  have hsize : A.size = B.size := Nat.le_antisymm (h.symm.size_le hB hA) (h.size_le hA hB)
  apply Array.ext_getElem?
  intro i
  by_cases hi : i < A.size
  · have hi' : i < B.size := hsize ▸ hi
    have hself := h.self hA hB i hi hi'
    refine FiniteState.getElem?_eq_of_lookups hA.linked hB.linked hi hi' (fun k => ?_)
      (h.token hself)
    have hlink := h.link k hself
    generalize hnext : (A[i]?).bind (FiniteState.link? · k) = next at hlink ⊢
    generalize (B[i]?).bind (FiniteState.link? · k) = next' at hlink ⊢
    cases hlink with
    | none => rfl
    | @some q r hr =>
      have hq : q < A.size := hA.inRange i hi q (mem_targetsOf.2 ⟨k, hnext⟩)
      rw [(h.same_iff (h.self hA hB q hq (hsize ▸ hq)) hr).1 rfl]
  · rw [Array.getElem?_eq_none (Nat.le_of_not_lt hi), Array.getElem?_eq_none]
    exact hsize ▸ Nat.le_of_not_lt hi

end Minimal

/-- States that are published from one arena correspond if they stand for the same state. -/
theorem MinimizedAlike.matching {a : Arena} {A B : Array FiniteState}
    {standsA standsB : StateId → StateId → Prop} (hA : MinimizedAlike a A standsA)
    (hB : MinimizedAlike a B standsB) :
    Minimal.Matching A B (fun q r => ∃ s, standsA s q ∧ standsB s r) where
  start := ⟨0, hA.start, hB.start⟩
  same_iff := by
    rintro q r q' r' ⟨s, hq, hr⟩ ⟨t, hq', hr'⟩
    rw [hA.same_iff hq hq', hB.same_iff hr hr']
  link := by
    rintro q r k ⟨s, hq, hr⟩
    exact rel_through (hA.link k hq) (hB.link k hr)
  token := by
    rintro q r ⟨s, hq, hr⟩
    rw [hA.token hq, hB.token hr]

/-! ### Arenas with their states in another order -/

namespace Arena

/-- The states that are listed, each at its place in the list, and their links renamed after them. -/
def arrange (a : Arena) (order : Array StateId) : Arena :=
  order.map (fun s => ⟨(a.linksOf s).mapValues (place order), a.tokenOf s⟩)

/-- Each state is listed once, the root in front, and with every state all that its links lead to. -/
structure Arranged (a : Arena) (order : Array StateId) : Prop where
  nodup : order.toList.Nodup
  root : order[0]? = some root
  lt : ∀ s ∈ order, s < a.size
  closed : ∀ s ∈ order, ∀ k t, a.link? s k = some t → t ∈ order

variable {a : Arena} {order : Array StateId} {s t i j : StateId}

theorem size_arrange (a : Arena) (order : Array StateId) : (a.arrange order).size = order.size :=
  Array.size_map

theorem link?_arrange (h : order[i]? = some s) (k : String) :
    (a.arrange order).link? i k = (a.link? s k).map (place order) := by
  rw [link?, linksOf, arrange, Array.getElem?_map, h, Option.map_some, Option.map_some,
    Option.getD_some, Dictionary.get?_mapValues, link?]

theorem tokenOf_arrange (h : order[i]? = some s) : (a.arrange order).tokenOf i = a.tokenOf s := by
  rw [tokenOf, arrange, Array.getElem?_map, h, Option.map_some, Option.bind_some]

namespace Arranged

theorem zero_lt_size (h : a.Arranged order) : 0 < a.size := h.lt _ (Array.mem_of_getElem? h.root)

theorem zero_lt_size_arrange (h : a.Arranged order) : 0 < (a.arrange order).size := by
  rw [size_arrange]
  exact (Array.getElem?_eq_some_iff.1 h.root).1

theorem getElem?_place (h : a.Arranged order) (hs : order[i]? = some s) {k : String}
    (hl : a.link? s k = some t) : order[place order t]? = some t :=
  Syntagma.getElem?_place (h.closed s (Array.mem_of_getElem? hs) k t hl)

theorem inRange (h : a.Arranged order) : (a.arrange order).InRange := by
  intro i k j hl
  have hi : i < order.size := size_arrange a order ▸ lt_size_of_link? hl
  rw [link?_arrange (Array.getElem?_eq_getElem hi), Option.map_eq_some_iff] at hl
  obtain ⟨t, hl, rfl⟩ := hl
  rw [size_arrange]
  exact place_lt (h.closed _ (Array.getElem_mem hi) k t hl)

theorem alike (h : a.Arranged order) (hij : (a.arrange order).Alike i j)
    (hs : order[i]? = some s) (ht : order[j]? = some t) : a.Alike s t := by
  induction hij generalizing s t with
  | refl i =>
    rw [hs, Option.some.injEq] at ht
    exact ht ▸ .refl s
  | step token keys targets ih =>
    refine .step ?_ (fun k => ?_) (fun k s' t' hl hl' => ?_)
    · rw [← tokenOf_arrange hs, token, tokenOf_arrange ht]
    · simpa [link?_arrange hs, link?_arrange ht] using keys k
    · refine ih k (place order s') (place order t') ?_ ?_ (h.getElem?_place hs hl)
        (h.getElem?_place ht hl')
      · rw [link?_arrange hs, hl, Option.map_some]
      · rw [link?_arrange ht, hl', Option.map_some]

theorem alike_arrange (h : a.Arranged order) (hst : a.Alike s t)
    (hs : order[i]? = some s) (ht : order[j]? = some t) : (a.arrange order).Alike i j := by
  induction hst generalizing i j with
  | refl s =>
    rw [← place_eq h.nodup hs, ← place_eq h.nodup ht]
    exact .refl _
  | step token keys targets ih =>
    refine .step ?_ (fun k => ?_) (fun k i' j' hl hl' => ?_)
    · rw [tokenOf_arrange hs, token, tokenOf_arrange ht]
    · simpa [link?_arrange hs, link?_arrange ht] using keys k
    · rw [link?_arrange hs, Option.map_eq_some_iff] at hl
      rw [link?_arrange ht, Option.map_eq_some_iff] at hl'
      obtain ⟨s', hl, rfl⟩ := hl
      obtain ⟨t', hl', rfl⟩ := hl'
      exact ih k s' t' hl hl' (h.getElem?_place hs hl) (h.getElem?_place ht hl')

/-- The links of a state and of the place where it stands correspond. -/
theorem rel_link? (h : a.Arranged order) (hs : order[i]? = some s) (k : String) :
    Option.Rel (fun j t => order[j]? = some t) ((a.arrange order).link? i k) (a.link? s k) := by
  rw [link?_arrange hs]
  cases hl : a.link? s k with
  | none => exact .none
  | some t => exact .some (h.getElem?_place hs hl)

/-- What is published from the arranged states stands for the states of the arena themselves. -/
theorem minimizedAlike (h : a.Arranged order) {states : Array FiniteState}
    {stands : StateId → StateId → Prop} (hmin : MinimizedAlike (a.arrange order) states stands) :
    MinimizedAlike a states (fun s q => ∃ i, order[i]? = some s ∧ stands i q) where
  start := ⟨0, h.root, hmin.start⟩
  lt := fun ⟨_, _, hq⟩ => hmin.lt hq
  link := by
    rintro s q k ⟨i, hs, hq⟩
    exact rel_through (h.rel_link? hs k) (hmin.link k hq)
  token := by
    rintro s q ⟨i, hs, hq⟩
    rw [hmin.token hq, tokenOf_arrange hs]
  same_iff := by
    rintro s t q r ⟨i, hs, hq⟩ ⟨j, ht, hr⟩
    rw [hmin.same_iff hq hr]
    exact ⟨fun hij => h.alike hij hs ht, fun hst => h.alike_arrange hst hs ht⟩

theorem minimize_arrange (h : a.Arranged order) (ha : a.InRange) :
    minimize (a.arrange order) 0 = minimize a 0 := by
  obtain ⟨stands, hmin⟩ := exists_minimizedAlike ha h.zero_lt_size
  obtain ⟨stands', hmin'⟩ := exists_minimizedAlike h.inRange h.zero_lt_size_arrange
  exact (Minimal.normal_minimize h.inRange h.zero_lt_size_arrange).eq_of_matching
    (Minimal.normal_minimize ha h.zero_lt_size) ((h.minimizedAlike hmin').matching hmin)

theorem of_perm (ha : a.InRange) (hroot : order[0]? = some Arena.root)
    (hperm : order.toList.Perm (List.range a.size)) : a.Arranged order := by
  have hmem (s : StateId) : s ∈ order ↔ s < a.size := by
    rw [← Array.mem_toList_iff, hperm.mem_iff, List.mem_range]
  exact {
    nodup := hperm.nodup_iff.2 List.nodup_range
    root := hroot
    lt s hs := (hmem s).1 hs
    closed s _ k t hl := (hmem t).2 (ha s k t hl) }

end Arranged

theorem mem_values_of_link? {k : String} (h : a.link? s k = some t) : t ∈ (a.linksOf s).values :=
  List.mem_map_of_mem (Dictionary.mem_entries_iff.2 h)

/-- What holds of a state and passes on along the links holds wherever keys lead. -/
theorem walk?_keeps (good : StateId → Prop)
    (hlink : ∀ s, good s → ∀ k t, a.link? s k = some t → good t) {keys : List String}
    (hs : good s) (hw : a.walk? s keys = some t) : good t := by
  induction keys generalizing s with
  | nil => exact Option.some.inj hw ▸ hs
  | cons k keys ih =>
    obtain ⟨next, hl, hw⟩ := Option.bind_eq_some_iff.1 hw
    exact ih (hlink s hs k next hl) hw

theorem Arranged.of_reached (ha : a.InRange) (hpos : 0 < a.size)
    (hroot : order[0]? = some Arena.root) (hnodup : order.toList.Nodup)
    (hreached : ∀ s, s ∈ order ↔ ∃ keys, a.walk? 0 keys = some s) : a.Arranged order where
  nodup := hnodup
  root := hroot
  lt s hs := by
    obtain ⟨keys, hw⟩ := (hreached s).1 hs
    exact walk?_keeps (· < a.size) (fun s _ => ha s) hpos hw
  closed s hs k t hl := by
    obtain ⟨keys, hw⟩ := (hreached s).1 hs
    refine (hreached t).2 ⟨keys ++ [k], ?_⟩
    rw [walk?_append, hw, Option.bind_some, walk?, hl]
    rfl

/-- Minimization from the root does not depend on the numbers of the states. The states may be listed
in any order that has the root in front, and those that the root does not lead to may be missing. -/
theorem minimize_reordered (ha : a.InRange) (hpos : 0 < a.size) :
    (∀ order : Array StateId, order[0]? = some root → order.toList.Perm (List.range a.size) →
      minimize (a.arrange order) 0 = minimize a 0) ∧
    (∀ order : Array StateId, order[0]? = some root → order.toList.Nodup →
      (∀ s, s ∈ order ↔ ∃ keys, a.walk? 0 keys = some s) →
      minimize (a.arrange order) 0 = minimize a 0) :=
  ⟨fun _ hroot hperm => (Arranged.of_perm ha hroot hperm).minimize_arrange ha,
    fun _ hroot hnodup hreached =>
      (Arranged.of_reached ha hpos hroot hnodup hreached).minimize_arrange ha⟩

/-- State 1 cannot be reached, but states 2 and 3 are merged into it, the latter when the ends are
equal. -/
def strayTwin : Arena := #[
  ⟨.ofList [("a", 2), ("b", 3)], none⟩,
  ⟨.ofList [("c", 4)], none⟩,
  ⟨.ofList [("c", 4)], none⟩,
  ⟨.ofList [("c", 5)], none⟩,
  ⟨.empty, some ⟨"end", "word"⟩⟩,
  ⟨.empty, some ⟨"end", "word"⟩⟩]

theorem minimize_reordered_strayTwin : strayTwin.InRange ∧ 0 < strayTwin.size ∧
    #[0, 5, 3, 2, 4, 1].toList.Perm (List.range strayTwin.size) ∧
    (∀ s, s ∈ #[0, 3, 2, 5, 4] ↔ ∃ keys, strayTwin.walk? 0 keys = some s) ∧
    minimize (strayTwin.arrange #[0, 5, 3, 2, 4, 1]) 0 = minimize strayTwin 0 ∧
    minimize (strayTwin.arrange #[0, 3, 2, 5, 4]) 0 = minimize strayTwin 0 := by
  have hrange : strayTwin.InRange := inRange_of_all (by decide +kernel)
  have hpos : 0 < strayTwin.size := by decide
  have hperm : #[0, 5, 3, 2, 4, 1].toList.Perm (List.range strayTwin.size) := by decide
  have hreached (s : StateId) :
      s ∈ #[0, 3, 2, 5, 4] ↔ ∃ keys, strayTwin.walk? 0 keys = some s := by
    have hkeys : ∀ s ∈ #[0, 3, 2, 5, 4], ∃ keys ∈ [[], ["b"], ["a"], ["b", "c"], ["a", "c"]],
        strayTwin.walk? 0 keys = some s := by decide +kernel
    have hclosed : ∀ s ∈ #[0, 3, 2, 5, 4], ∀ t ∈ (strayTwin.linksOf s).values,
        t ∈ #[0, 3, 2, 5, 4] := by decide +kernel
    constructor
    · intro hs
      obtain ⟨keys, -, hw⟩ := hkeys s hs
      exact ⟨keys, hw⟩
    · rintro ⟨keys, hw⟩
      exact walk?_keeps (· ∈ #[0, 3, 2, 5, 4])
        (fun s hs k t hl => hclosed s hs t (mem_values_of_link? hl)) (by simp) hw
  obtain ⟨hmoved, hkept⟩ := minimize_reordered hrange hpos
  exact ⟨hrange, hpos, hperm, hreached, hmoved _ rfl hperm, hkept _ rfl (by decide) hreached⟩

end Arena

end Syntagma
