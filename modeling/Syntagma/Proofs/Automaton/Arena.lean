import Syntagma.Automaton.Arena
import Syntagma.Proofs.Dictionary

/-! States under construction, by what can be looked up in them: where a key leads from a state and
what a state accepts. Synthesis only adds to either. -/

namespace Syntagma.Arena

variable {a b c : Arena} {state s t : StateId} {key k : String}

/-! ### Looking up -/

/-- The arena with one more state, which has no links and accepts nothing. -/
def grown (a : Arena) : Arena := a.push ⟨.empty, none⟩

@[simp] theorem size_grown (a : Arena) : a.grown.size = a.size + 1 := Array.size_push _

@[simp] theorem linksOf_grown (a : Arena) (s : StateId) : a.grown.linksOf s = a.linksOf s := by
  unfold linksOf grown
  rw [Array.getElem?_push]
  split
  next h => rw [h, Array.getElem?_eq_none (Nat.le_refl _)]; rfl
  next => rfl

@[simp] theorem tokenOf_grown (a : Arena) (s : StateId) : a.grown.tokenOf s = a.tokenOf s := by
  unfold tokenOf grown
  rw [Array.getElem?_push]
  split
  next h => rw [h, Array.getElem?_eq_none (Nat.le_refl _)]; rfl
  next => rfl

@[simp] theorem link?_grown (a : Arena) (s : StateId) (k : String) :
    a.grown.link? s k = a.link? s k := by
  rw [link?, linksOf_grown, link?]

@[simp] theorem size_setLink (a : Arena) (state : StateId) (key : String) (target : StateId) :
    (a.setLink state key target).size = a.size := by
  simp [setLink]

@[simp] theorem size_setToken (a : Arena) (state : StateId) (token : AcceptToken) :
    (a.setToken state token).size = a.size := by
  simp [setToken]

theorem linksOf_setLink (h : state < a.size) (key : String) (target s : StateId) :
    (a.setLink state key target).linksOf s =
      if s = state then (a.linksOf s).insert key target else a.linksOf s := by
  unfold linksOf setLink
  rw [Array.getElem?_modify]
  by_cases hs : s = state
  · subst hs
    simp [Array.getElem?_eq_getElem h]
  · simp [hs, Ne.symm hs]

theorem link?_setLink (h : state < a.size) (key : String) (target s : StateId) (k : String) :
    (a.setLink state key target).link? s k =
      if s = state ∧ k = key then some target else a.link? s k := by
  rw [link?, linksOf_setLink h]
  by_cases hs : s = state
  · simp [hs, Dictionary.get?_insert, link?]
  · simp [hs, link?]

@[simp] theorem tokenOf_setLink (a : Arena) (state : StateId) (key : String) (target s : StateId) :
    (a.setLink state key target).tokenOf s = a.tokenOf s := by
  unfold tokenOf setLink
  rw [Array.getElem?_modify]
  split
  next h => subst h; cases a[state]? <;> rfl
  next => rfl

@[simp] theorem linksOf_setToken (a : Arena) (state : StateId) (token : AcceptToken) (s : StateId) :
    (a.setToken state token).linksOf s = a.linksOf s := by
  unfold linksOf setToken
  rw [Array.getElem?_modify]
  split
  next h => subst h; cases a[state]? <;> rfl
  next => rfl

@[simp] theorem link?_setToken (a : Arena) (state : StateId) (token : AcceptToken) (s : StateId)
    (k : String) : (a.setToken state token).link? s k = a.link? s k := by
  rw [link?, linksOf_setToken, link?]

theorem tokenOf_setToken (h : state < a.size) (token : AcceptToken) (s : StateId) :
    (a.setToken state token).tokenOf s = if s = state then some token else a.tokenOf s := by
  unfold tokenOf setToken
  rw [Array.getElem?_modify]
  by_cases hs : s = state
  · subst hs
    simp [Array.getElem?_eq_getElem h]
  · simp [hs, Ne.symm hs]

/-- A state that has a link is there. -/
theorem lt_size_of_link? (h : a.link? s k = some t) : s < a.size := by
  refine Nat.lt_of_not_le (fun hs => ?_)
  simp [link?, linksOf, Array.getElem?_eq_none hs] at h

/-- A state that accepts is there. -/
theorem lt_size_of_tokenOf {token : AcceptToken} (h : a.tokenOf s = some token) : s < a.size := by
  refine Nat.lt_of_not_le (fun hs => ?_)
  simp [tokenOf, Array.getElem?_eq_none hs] at h

/-! ### Arenas that go on from others -/

/-- Links lead to states that are there. -/
def InRange (a : Arena) : Prop := ∀ s k t, a.link? s k = some t → t < a.size

/-- The root is there, and links lead to states that are there, but not to the root. -/
structure Closed (a : Arena) : Prop where
  root : Arena.root < a.size
  target {s t : StateId} {k : String} : a.link? s k = some t → t < a.size ∧ t ≠ Arena.root

theorem inRange_of_all (h : a.all (fun s => s.links.values.all (· < a.size))) : a.InRange := by
  intro s k t hl
  have hs := lt_size_of_link? hl
  have hlinks := Array.all_eq_true.1 h s hs
  rw [link?, linksOf, Array.getElem?_eq_getElem hs] at hl
  have hmem := Dictionary.mem_entries_iff.2 hl
  exact of_decide_eq_true (List.all_eq_true.1 hlinks t (List.mem_map.2 ⟨_, hmem, rfl⟩))

theorem Closed.inRange (h : a.Closed) : a.InRange := fun _ _ _ hl => (h.target hl).1

/-- Nothing of the first arena is lost or changed in the second. -/
structure Extends (a b : Arena) : Prop where
  size_le : a.size ≤ b.size
  link {s t : StateId} {k : String} : a.link? s k = some t → b.link? s k = some t
  token {s : StateId} {x : AcceptToken} : a.tokenOf s = some x → b.tokenOf s = some x

namespace Extends

theorem refl (a : Arena) : a.Extends a := ⟨Nat.le_refl _, id, id⟩

theorem trans (h : a.Extends b) (h' : b.Extends c) : a.Extends c :=
  ⟨Nat.le_trans h.size_le h'.size_le, fun hl => h'.link (h.link hl),
    fun ht => h'.token (h.token ht)⟩

end Extends

theorem closed_initial : Arena.initial.Closed where
  root := Nat.zero_lt_one
  target {s t k} h := by
    have hs : s < 1 := lt_size_of_link? h
    obtain rfl : s = 0 := Nat.lt_one_iff.1 hs
    exact nomatch h

theorem extends_setLink (h : state < a.size) (hn : a.link? state key = none) (target : StateId) :
    a.Extends (a.setLink state key target) where
  size_le := by simp
  link {s t k} hl := by
    rw [link?_setLink h, if_neg, hl]
    rintro ⟨rfl, rfl⟩
    exact nomatch hn.symm.trans hl
  token hx := by simpa using hx

theorem closed_setLink (ha : a.Closed) (h : state < a.size) {target : StateId}
    (ht : target < a.size) (hr : target ≠ Arena.root) (key : String) :
    (a.setLink state key target).Closed where
  root := by simpa using ha.root
  target {s t k} hl := by
    rw [link?_setLink h] at hl
    rw [size_setLink]
    split at hl
    · cases hl
      exact ⟨ht, hr⟩
    · exact ha.target hl

theorem extends_grown (a : Arena) : a.Extends a.grown where
  size_le := by simp
  link hl := by simpa using hl
  token hx := by simpa using hx

theorem closed_grown (ha : a.Closed) : a.grown.Closed where
  root := by
    rw [size_grown]
    exact Nat.lt_succ_of_lt ha.root
  target {s t k} hl := by
    rw [link?_grown] at hl
    rw [size_grown]
    exact ⟨Nat.lt_succ_of_lt (ha.target hl).1, (ha.target hl).2⟩

theorem extends_setToken (h : state < a.size) (hn : a.tokenOf state = none) (token : AcceptToken) :
    a.Extends (a.setToken state token) where
  size_le := by simp
  link hl := by simpa using hl
  token {s x} hx := by
    rw [tokenOf_setToken h, if_neg, hx]
    rintro rfl
    exact nomatch hn.symm.trans hx

theorem closed_setToken (ha : a.Closed) (state : StateId) (token : AcceptToken) :
    (a.setToken state token).Closed where
  root := by simpa using ha.root
  target hl := by simpa using ha.target (by simpa using hl)

/-! ### Following keys -/

/-- Where the keys lead from a state, if each of them has a link. -/
def walk? (a : Arena) : StateId → List String → Option StateId
  | state, [] => some state
  | state, key :: rest => (a.link? state key).bind (fun next => a.walk? next rest)

theorem walk?_append (a : Arena) (state : StateId) (keys more : List String) :
    a.walk? state (keys ++ more) = (a.walk? state keys).bind (fun next => a.walk? next more) := by
  induction keys generalizing state with
  | nil => rfl
  | cons key keys ih =>
    simp only [List.cons_append, walk?, Option.bind_assoc]
    congr 1
    funext next
    exact ih next

theorem Extends.walk? (h : a.Extends b) {keys : List String} (hw : a.walk? s keys = some t) :
    b.walk? s keys = some t := by
  induction keys generalizing s with
  | nil => exact hw
  | cons key keys ih =>
    obtain ⟨next, hl, hw⟩ := Option.bind_eq_some_iff.1 hw
    simp only [Arena.walk?, h.link hl, Option.bind_some]
    exact ih hw

/-- The second arena is built from the first: nothing is lost, links stay among the states, and every
state is reached from one that was there. -/
structure Builds (a b : Arena) : Prop extends a.Extends b where
  closed : a.Closed → b.Closed
  reached {t : StateId} : t < b.size → ∃ s keys, s < a.size ∧ b.walk? s keys = some t

theorem Extends.builds (h : a.Extends b) (hc : a.Closed → b.Closed) (hsize : b.size = a.size) :
    a.Builds b :=
  ⟨h, hc, fun {t} ht => ⟨t, [], hsize ▸ ht, rfl⟩⟩

namespace Builds

theorem refl (a : Arena) : a.Builds a := (Extends.refl a).builds id rfl

theorem trans (h : a.Builds b) (h' : b.Builds c) : a.Builds c where
  toExtends := h.toExtends.trans h'.toExtends
  closed := h'.closed ∘ h.closed
  reached {t} ht := by
    obtain ⟨m, more, hm, hmore⟩ := h'.reached ht
    obtain ⟨s, keys, hs, hkeys⟩ := h.reached hm
    refine ⟨s, keys ++ more, hs, ?_⟩
    rw [walk?_append, h'.toExtends.walk? hkeys]
    exact hmore

end Builds

theorem builds_setLink (h : state < a.size) (hn : a.link? state key = none) {target : StateId}
    (ht : target < a.size) (hr : target ≠ Arena.root) : a.Builds (a.setLink state key target) :=
  (extends_setLink h hn target).builds (fun ha => closed_setLink ha h ht hr key) (size_setLink ..)

theorem builds_setToken (h : state < a.size) (hn : a.tokenOf state = none) (token : AcceptToken) :
    a.Builds (a.setToken state token) :=
  (extends_setToken h hn token).builds (fun ha => closed_setToken ha state token) (size_setToken ..)

/-- Following a key takes the link there is, or makes one to a new last state. -/
theorem follow_cases (a : Arena) (state : StateId) (key : String) :
    (∃ next, a.link? state key = some next ∧ a.follow state key = (next, a)) ∨
      (a.link? state key = none ∧
        a.follow state key = (a.size, a.grown.setLink state key a.size)) := by
  unfold follow
  cases h : a.link? state key with
  | some next => exact .inl ⟨next, rfl, rfl⟩
  | none => exact .inr ⟨rfl, rfl⟩

theorem follow_spec (ha : a.Closed) (hs : state < a.size) {next : StateId}
    (h : a.follow state key = (next, b)) :
    a.Builds b ∧ b.link? state key = some next ∧ next < b.size := by
  obtain ⟨old, hl, he⟩ | ⟨hn, he⟩ := follow_cases a state key
  · rw [he] at h
    cases h
    exact ⟨.refl a, hl, (ha.target hl).1⟩
  · rw [he] at h
    cases h
    have hlt : state < a.grown.size := by
      rw [size_grown]
      exact Nat.lt_succ_of_lt hs
    have hlink : (a.grown.setLink state key a.size).link? state key = some a.size := by
      rw [link?_setLink hlt, if_pos ⟨rfl, rfl⟩]
    refine ⟨⟨?_, fun ha => ?_, fun {t} ht => ?_⟩, hlink, by simp⟩
    · refine (extends_grown a).trans (extends_setLink hlt ?_ _)
      rwa [link?_grown]
    · exact closed_setLink (closed_grown ha) hlt (by simp) (Nat.ne_of_gt ha.root) key
    · rw [size_setLink, size_grown] at ht
      rcases Nat.lt_succ_iff_lt_or_eq.1 ht with ht | rfl
      · exact ⟨t, [], ht, rfl⟩
      · exact ⟨state, [key], hs, by rw [walk?, hlink]; rfl⟩

theorem followAll_spec (ha : a.Closed) (hs : state < a.size) {last : StateId} {keys : List String}
    (h : a.followAll state keys = (last, b)) :
    a.Builds b ∧ b.walk? state keys = some last ∧ last < b.size := by
  induction keys generalizing a state with
  | nil =>
    cases h
    exact ⟨.refl _, rfl, hs⟩
  | cons key keys ih =>
    simp only [followAll] at h
    rcases hf : a.follow state key with ⟨next, a₁⟩
    obtain ⟨hb, hlink, hlt⟩ := follow_spec ha hs hf
    rw [hf] at h
    obtain ⟨hb', hwalk, hlast⟩ := ih (hb.closed ha) hlt h
    refine ⟨hb.trans hb', ?_, hlast⟩
    simp only [walk?, hb'.link hlink, Option.bind_some, hwalk]

theorem offerToken_spec (hs : state < a.size) (token : AcceptToken) :
    a.Builds (a.offerToken state token) ∧ ((a.offerToken state token).tokenOf state).isSome := by
  unfold offerToken
  split
  next h => exact ⟨.refl a, h⟩
  next h =>
    have hnone : a.tokenOf state = none := by simpa using h
    refine ⟨builds_setToken hs hnone token, ?_⟩
    rw [tokenOf_setToken hs, if_pos rfl]
    rfl

end Syntagma.Arena
