import Mathlib.Data.List.Basic
import Mathlib.Data.List.Induction
import Syntagma.Proofs.Automaton.Arena

/-! The keys that lead from the root to a state. While states sprout, that is while links are made
to new states only, no state that was there is reached by other keys than before. So a state that is
reached by one sequence of keys alone stays so, until loops are closed. -/

namespace Syntagma.Arena

variable {a b c : Arena} {s t state : StateId} {key : String} {keys path : List String}

theorem walk?_concat (a : Arena) (s : StateId) (keys : List String) (key : String) :
    a.walk? s (keys ++ [key]) = (a.walk? s keys).bind (fun m => a.link? m key) := by
  rw [walk?_append]
  congr 1
  funext m
  cases h : a.link? m key <;> simp [walk?, h]

/-- The last link of a path. -/
theorem exists_of_walk?_concat (h : a.walk? s (keys ++ [key]) = some t) :
    ∃ m, a.walk? s keys = some m ∧ a.link? m key = some t := by
  rw [walk?_concat] at h
  exact Option.bind_eq_some_iff.1 h

theorem lt_size_of_walk? (ha : a.Closed) (h : a.walk? root keys = some t) : t < a.size := by
  rcases List.eq_nil_or_concat' keys with rfl | ⟨before, key, rfl⟩
  · cases h
    exact ha.root
  · obtain ⟨m, -, hl⟩ := exists_of_walk?_concat h
    exact (ha.target hl).1

/-- The keys lead from the root to the state, and no others do. -/
def Only (a : Arena) (keys : List String) (state : StateId) : Prop :=
  ∀ path, a.walk? root path = some state ↔ path = keys

theorem Only.walk? (h : a.Only keys s) : a.walk? root keys = some s := (h keys).2 rfl

theorem Only.lt_size (h : a.Only keys s) (ha : a.Closed) : s < a.size :=
  lt_size_of_walk? ha h.walk?

theorem only_root (ha : a.Closed) : a.Only [] root := by
  refine fun path => ⟨fun h => ?_, fun h => h ▸ rfl⟩
  rcases List.eq_nil_or_concat' path with rfl | ⟨before, key, rfl⟩
  · rfl
  · obtain ⟨m, -, hl⟩ := exists_of_walk?_concat h
    exact absurd rfl (ha.target hl).2

/-! ### Sprouting -/

/-- The second arena goes on from the first, and what leads to its old states led there before. -/
structure Sprouts (a b : Arena) : Prop extends a.Extends b where
  path {path : List String} {s : StateId} : b.walk? root path = some s → s < a.size →
    a.walk? root path = some s

namespace Sprouts

theorem refl (a : Arena) : a.Sprouts a := ⟨.refl a, fun h _ => h⟩

theorem trans (h : a.Sprouts b) (h' : b.Sprouts c) : a.Sprouts c :=
  ⟨h.toExtends.trans h'.toExtends, fun hw hs =>
    h.path (h'.path hw (Nat.lt_of_lt_of_le hs h.size_le)) hs⟩

/-- A state that is reached by one path alone stays so. -/
theorem only (h : a.Sprouts b) (ha : a.Closed) (ho : a.Only keys s) : b.Only keys s :=
  fun path => ⟨fun hw => (ho path).1 (h.path hw (ho.lt_size ha)),
    fun he => h.toExtends.walk? (he ▸ ho.walk?)⟩

end Sprouts

/-- An arena sprouts if all links to its old states are old. -/
theorem sprouts_of_links (he : a.Extends b)
    (hl : ∀ {s t : StateId} {k : String}, b.link? s k = some t → t < a.size →
      a.link? s k = some t) : a.Sprouts b := by
  refine ⟨he, fun {path s} hw hs => ?_⟩
  induction path using List.reverseRecOn generalizing s with
  | nil => exact hw
  | append_singleton path key ih =>
    obtain ⟨m, hm, hlink⟩ := exists_of_walk?_concat hw
    have hold := hl hlink hs
    rw [walk?_concat, ih hm (lt_size_of_link? hold), Option.bind_some, hold]

theorem sprouts_follow (ha : a.Closed) (hs : s < a.size) (h : a.follow s key = (t, b)) :
    a.Sprouts b := by
  obtain ⟨hb, -⟩ := follow_spec ha hs h
  refine sprouts_of_links hb.toExtends (fun {s' t' k} hl ht => ?_)
  obtain ⟨next, -, he⟩ | ⟨-, he⟩ := follow_cases a s key <;> cases he.symm.trans h
  · exact hl
  · rw [link?_setLink (by rw [size_grown]; exact Nat.lt_succ_of_lt hs), link?_grown] at hl
    split at hl
    · cases hl
      exact absurd ht (Nat.lt_irrefl _)
    · exact hl

theorem tokenOf_follow (h : a.follow s key = (t, b)) (q : StateId) : b.tokenOf q = a.tokenOf q := by
  obtain ⟨next, -, he⟩ | ⟨-, he⟩ := follow_cases a s key <;> cases he.symm.trans h
  · rfl
  · rw [tokenOf_setLink, tokenOf_grown]

theorem sprouts_followAll (ha : a.Closed) (hs : s < a.size) (h : a.followAll s keys = (t, b)) :
    a.Sprouts b ∧ ∀ q, b.tokenOf q = a.tokenOf q := by
  induction keys generalizing a s with
  | nil =>
    cases h
    exact ⟨.refl _, fun _ => rfl⟩
  | cons key keys ih =>
    simp only [followAll] at h
    rcases hf : a.follow s key with ⟨next, a₁⟩
    obtain ⟨hb, -, hlt⟩ := follow_spec ha hs hf
    rw [hf] at h
    obtain ⟨hsprouts, htoken⟩ := ih (hb.closed ha) hlt h
    exact ⟨(sprouts_follow ha hs hf).trans hsprouts,
      fun q => (htoken q).trans (tokenOf_follow hf q)⟩

theorem walk?_setToken (a : Arena) (s : StateId) (token : AcceptToken) (q : StateId)
    (path : List String) : (a.setToken s token).walk? q path = a.walk? q path := by
  induction path generalizing q with
  | nil => rfl
  | cons key path ih =>
    simp only [walk?, link?_setToken]
    congr 1
    funext next
    exact ih next

theorem sprouts_setToken (hs : s < a.size) (hn : a.tokenOf s = none) (token : AcceptToken) :
    a.Sprouts (a.setToken s token) :=
  ⟨extends_setToken hs hn token, fun hw _ => (walk?_setToken a s token _ _).symm.trans hw⟩

/-! ### Orderly arenas -/

/-- Every state is reached, by one path alone unless all of its paths are barred. -/
structure Orderly (barred : List String → Prop) (a : Arena) : Prop where
  closed : a.Closed
  reached {s : StateId} : s < a.size → ∃ path, a.walk? root path = some s
  single {s : StateId} : s < a.size → (∃ keys, a.Only keys s) ∨
    ∀ path, a.walk? root path = some s → barred path

/-- What leads to an accepting state fits the token. -/
def Fitting (fits : AcceptToken → List String → Prop) (a : Arena) : Prop :=
  ∀ s token path, a.tokenOf s = some token → a.walk? root path = some s → fits token path

variable {barred : List String → Prop} {fits : AcceptToken → List String → Prop}

theorem orderly_initial (barred : List String → Prop) : Orderly barred Arena.initial := by
  have hroot {s : StateId} (hs : s < Arena.initial.size) : s = root := Nat.lt_one_iff.1 hs
  refine ⟨closed_initial, fun hs => ⟨[], ?_⟩, fun hs => .inl ⟨[], ?_⟩⟩
  · rw [hroot hs]
    rfl
  · rw [hroot hs]
    exact only_root closed_initial

/-- A state that is reached by a path that is not barred is reached by this path alone. -/
theorem Orderly.only (h : Orderly barred a) (hw : a.walk? root path = some s) (hp : ¬barred path) :
    a.Only path s := by
  obtain ⟨keys, ho⟩ | hbarred := h.single (lt_size_of_walk? h.closed hw)
  · rwa [(ho path).1 hw]
  · exact absurd (hbarred path hw) hp

/-- Following a key that is not barred leads to a state that is reached over this key alone. -/
theorem Orderly.follow (h : Orderly barred a) (ho : a.Only keys s) (hp : ¬barred (keys ++ [key]))
    (hf : a.follow s key = (t, b)) : Orderly barred b ∧ b.Only (keys ++ [key]) t := by
  have hs := ho.lt_size h.closed
  obtain ⟨hb, hlink, -⟩ := follow_spec h.closed hs hf
  have hsprouts := sprouts_follow h.closed hs hf
  have hkeys := (hsprouts.only h.closed ho).walk?
  obtain ⟨next, hl, he⟩ | ⟨hn, he⟩ := follow_cases a s key <;> cases he.symm.trans hf
  · have hwalk : a.walk? root (keys ++ [key]) = some t := by
      rw [walk?_concat, ho.walk?, Option.bind_some, hl]
    exact ⟨h, h.only hwalk hp⟩
  · have honly : (setLink a.grown s key a.size).Only (keys ++ [key]) a.size := by
      refine fun path => ⟨fun hw => ?_, fun hpath => ?_⟩
      · rcases List.eq_nil_or_concat' path with rfl | ⟨before, k, rfl⟩
        · have hroot : root = a.size := Option.some.inj hw
          exact absurd hroot (Nat.ne_of_lt h.closed.root)
        obtain ⟨m, hm, hl⟩ := exists_of_walk?_concat hw
        rw [link?_setLink (by rw [size_grown]; exact Nat.lt_succ_of_lt hs), link?_grown] at hl
        split at hl
        next hsame =>
          obtain ⟨rfl, rfl⟩ := hsame
          rw [((hsprouts.only h.closed ho) before).1 hm]
        next => exact absurd (h.closed.target hl).1 (Nat.lt_irrefl _)
      · rw [hpath, walk?_concat, hkeys, Option.bind_some, hlink]
    have hcases {q : StateId} (hq : q < (setLink a.grown s key a.size).size) :
        q < a.size ∨ q = a.size := by
      rw [size_setLink, size_grown] at hq
      exact Nat.lt_or_eq_of_le (Nat.le_of_lt_succ hq)
    refine ⟨⟨hb.closed h.closed, fun {q} hq => ?_, fun {q} hq => ?_⟩, honly⟩
    · rcases hcases hq with hq | rfl
      · exact (h.reached hq).imp (fun _ hw => hsprouts.toExtends.walk? hw)
      · exact ⟨_, honly.walk?⟩
    · rcases hcases hq with hq | rfl
      · refine (h.single hq).imp ?_ ?_
        · exact fun ⟨keys, hk⟩ => ⟨keys, hsprouts.only h.closed hk⟩
        · exact fun hbarred path hw => hbarred path (hsprouts.path hw hq)
      · exact .inl ⟨_, honly⟩

theorem Orderly.setToken (h : Orderly barred a) (s : StateId) (token : AcceptToken) :
    Orderly barred (a.setToken s token) := by
  refine ⟨closed_setToken h.closed s token, fun hq => ?_, fun hq => ?_⟩
  · simpa only [walk?_setToken] using h.reached (by simpa using hq)
  · simpa only [Only, walk?_setToken] using h.single (by simpa using hq)

theorem fitting_initial (fits : AcceptToken → List String → Prop) : Fitting fits Arena.initial := by
  intro s token path ht
  have hs : s < 1 := lt_size_of_tokenOf ht
  obtain rfl : s = 0 := Nat.lt_one_iff.1 hs
  exact nomatch ht

/-- Tokens still fit where states sprout without other tokens than those that fit anyway. -/
theorem Fitting.sprouts (h : Fitting fits a) (hs : a.Sprouts b)
    (ht : ∀ s token, b.tokenOf s = some token → a.tokenOf s = some token ∨
      ∀ path, b.walk? root path = some s → fits token path) : Fitting fits b := by
  intro s token path htoken hw
  rcases ht s token htoken with hold | hfits
  · exact h s token path hold (hs.path hw (lt_size_of_tokenOf hold))
  · exact hfits path hw

/-- Links stay among the states, and what leads to an accepting state fits its token. -/
structure Fit (fits : AcceptToken → List String → Prop) (a : Arena) : Prop where
  closed : a.Closed
  fitting : a.Fitting fits

namespace Fit

variable {token : AcceptToken}

theorem followAll (h : a.Fit fits) (hs : state < a.size) (hf : a.followAll state keys = (t, b)) :
    b.Fit fits := by
  obtain ⟨hsprouts, htoken⟩ := sprouts_followAll h.closed hs hf
  obtain ⟨hb, -⟩ := followAll_spec h.closed hs hf
  exact ⟨hb.closed h.closed, h.fitting.sprouts hsprouts (fun q _ ht => .inl ((htoken q).symm.trans ht))⟩

theorem setToken (h : a.Fit fits) (hs : state < a.size) (ht : ∀ path, fits token path) :
    (a.setToken state token).Fit fits := by
  refine ⟨closed_setToken h.closed state token, fun q accepted path hq hw => ?_⟩
  rw [tokenOf_setToken hs] at hq
  rw [walk?_setToken] at hw
  split at hq
  · cases hq
    exact ht path
  · exact h.fitting q accepted path hq hw

end Fit

end Syntagma.Arena
