import Syntagma.Proofs.Automaton.Widening

/-! The states that are found where others were. A merged state is found in the place of its first
part, goes on with the same keys to a state in the place of what its first part went on to, and keeps
the token of its first part. A link that is widened leads on to a state in the same place. So whatever
led to a token before widening leads to the same token afterwards, however many states were merged. -/

namespace Syntagma.Arena

variable {n N : Nat} {a a' b : Arena} {memo memo' : Merged} {p s m q x state target : StateId}
  {key : String}

/-- The second state was where the first is now: it is the same, or it was where the first part is
that the state was merged from. -/
inductive InPlaceOf (n : Nat) (memo : Merged) : StateId → StateId → Prop where
  | self {x : StateId} (h : x < n) : InPlaceOf n memo x x
  | first {p s m x : StateId} (h : memo[(p, s)]? = some m) (hx : InPlaceOf n memo p x) :
    InPlaceOf n memo m x

theorem InPlaceOf.grew (h : InPlaceOf n memo q x) (hg : Grew a memo a' memo') :
    InPlaceOf n memo' q x := by
  induction h with
  | self hx => exact .self hx
  | first hm _ ih => exact .first (hg.keeps hm) ih

/-- The states that are there are in the places where they were before more were merged. -/
theorem Recorded.inPlaceOf_of_grew (h : Recorded n a memo) (hg : Grew a memo a' memo')
    (hx : InPlaceOf n memo' q x) (hq : q < a.size) : InPlaceOf n memo q x := by
  induction hx with
  | self hx => exact .self hx
  | first hm _ ih =>
    have hm := hg.news hm hq
    exact .first hm (ih (Nat.lt_trans (h.bounds hm).1 hq))

theorem Recorded.inPlaceOf_first (h : Recorded n a memo) (hm : memo[(p, s)]? = some m)
    (hx : InPlaceOf n memo m x) : InPlaceOf n memo p x := by
  cases hx with
  | self hx => exact absurd hx (Nat.not_lt.2 (h.bounds hm).2.2.1)
  | first hm' hx =>
    cases h.inj hm' hm
    exact hx

/-- The state goes on and accepts as the states did that were in its place. -/
structure Follows (b a : Arena) (memo : Merged) (q : StateId) : Prop where
  link {x x' : StateId} {k : String} : InPlaceOf b.size memo q x → b.link? x k = some x' →
    ∃ q', a.link? q k = some q' ∧ InPlaceOf b.size memo q' x'
  token {x : StateId} {token : AcceptToken} : InPlaceOf b.size memo q x →
    b.tokenOf x = some token → a.tokenOf q = some token

theorem Follows.of_grew (h : Follows b a memo q) (hr : Recorded b.size a memo)
    (hg : Grew a memo a' memo') (hq : q < a.size) : Follows b a' memo' q where
  link hx hl := by
    obtain ⟨q', hl', hx'⟩ := h.link (hr.inPlaceOf_of_grew hg hx hq) hl
    exact ⟨q', by rw [hg.link? hq, hl'], hx'.grew hg⟩
  token hx ht := by
    rw [hg.token hq]
    exact h.token (hr.inPlaceOf_of_grew hg hx hq) ht

/-- A merged state follows what its first part follows. -/
theorem Made.follows (h : Made N a memo p s m) (hr : Recorded b.size a memo)
    (hp : Follows b a memo p) : Follows b a memo m where
  link {x x' k} hx hl := by
    obtain ⟨p', hl', hx'⟩ := hp.link (hr.inPlaceOf_first h.done hx) hl
    have hjoins := h.link k
    rw [hl'] at hjoins
    generalize a.link? s k = s' at hjoins
    generalize a.link? m k = q' at hjoins
    cases hjoins with
    | first | same => exact ⟨p', rfl, hx'⟩
    | both hm => exact ⟨_, rfl, .first hm hx'⟩
  token hx ht := by
    rw [h.token, hp.token (hr.inPlaceOf_first h.done hx) ht]
    rfl

/-- All states follow. -/
structure Kept (b a : Arena) (memo : Merged) : Prop where
  recorded : Recorded b.size a memo
  follows (q : StateId) : q < a.size → Follows b a memo q

namespace Kept

theorem start (hb : b.InRange) : Kept b b ∅ where
  recorded := recorded_empty hb
  follows q hq := by
    have hsame {x : StateId} (hx : InPlaceOf b.size ∅ q x) : x = q := by
      cases hx with
      | self => rfl
      | first hm => simp at hm
    constructor
    · intro x x' k hx hl
      rw [hsame hx] at hl
      exact ⟨x', hl, .self (hb q k x' hl)⟩
    · intro x token hx ht
      rwa [hsame hx] at ht

/-- New states follow what their first parts follow. -/
theorem merge (h : Kept b a memo) (hp : p < a.size) (hs : s < a.size)
    (hm : Arena.merge p s a memo = (m, a', memo')) :
    Kept b a' memo' ∧ Grew a memo a' memo' ∧ memo'[(p, s)]? = some m := by
  have hmerging := merging_merge h.recorded hp hs
  rw [hm] at hmerging
  have hold (q : StateId) (hq : q < a.size) : Follows b a' memo' q :=
    (h.follows q hq).of_grew h.recorded hmerging.grew hq
  refine ⟨⟨hmerging.recorded, fun q hq => ?_⟩, hmerging.grew, hmerging.done⟩
  rcases Nat.lt_or_ge q a.size with hlt | hge
  · exact hold q hlt
  · obtain ⟨p', s', hmade⟩ := hmerging.made q hge hq
    exact hmade.follows hmerging.recorded (hold p' hmade.left)

/-- A link is set to a state in the place of what it led to, if it led to any. -/
theorem setLink (h : Kept b a memo) (hs : state < a.size) (ht : target < a.size)
    (hplace : ∀ old, a.link? state key = some old →
      ∀ x, InPlaceOf b.size memo old x → InPlaceOf b.size memo target x) :
    Kept b (a.setLink state key target) memo where
  recorded := h.recorded.setLink hs ht
  follows q hq := by
    rw [size_setLink] at hq
    constructor
    · intro x x' k hx hl
      obtain ⟨q', hl', hx'⟩ := (h.follows q hq).link hx hl
      rw [link?_setLink hs]
      by_cases hkey : q = state ∧ k = key
      · obtain ⟨rfl, rfl⟩ := hkey
        exact ⟨target, if_pos ⟨rfl, rfl⟩, hplace q' hl' x' hx'⟩
      · exact ⟨q', by rw [if_neg hkey, hl'], hx'⟩
    · intro x token hx ht
      rw [tokenOf_setLink]
      exact (h.follows q hq).token hx ht

/-! ### Widening -/

theorem addNarrowedLink (key : String) (h : Kept b a memo) (hs : state < a.size) (ht : target < a.size)
    (hadd : Arena.addNarrowedLink state target key a memo = (a', memo')) :
    Kept b a' memo' ∧ a.size ≤ a'.size := by
  rcases addNarrowedLink_cases hadd with ⟨hl, rfl, rfl⟩ | ⟨-, rfl, rfl⟩ |
    ⟨existing, merged, a₁, hl, hm, rfl⟩
  · exact ⟨h.setLink hs ht (fun old ho => nomatch hl.symm.trans ho), by simp⟩
  · exact ⟨h, Nat.le_refl _⟩
  · obtain ⟨h₁, hg, hdone⟩ := h.merge (h.recorded.target hl) ht hm
    have hs₁ := Nat.lt_of_lt_of_le hs hg.size_le
    have hlink : a₁.link? state key = some existing := (hg.link? hs key).trans hl
    refine ⟨h₁.setLink hs₁ (h₁.recorded.bounds hdone).2.2.2 (fun old ho x hx => ?_), ?_⟩
    · obtain rfl := Option.some.inj (hlink.symm.trans ho)
      exact .first hdone hx
    · rw [size_setLink]
      exact hg.size_le

theorem exists_walk? (h : Kept b a memo) (hq : q < a.size) (hx : InPlaceOf b.size memo q x)
    {keys : List String} {x' : StateId} (hw : b.walk? x keys = some x') :
    ∃ q', a.walk? q keys = some q' ∧ q' < a.size ∧ InPlaceOf b.size memo q' x' := by
  induction keys generalizing q x with
  | nil =>
    cases hw
    exact ⟨q, rfl, hq, hx⟩
  | cons k keys ih =>
    obtain ⟨next, hl, hw⟩ := Option.bind_eq_some_iff.1 hw
    obtain ⟨q₁, hl₁, hx₁⟩ := (h.follows q hq).link hx hl
    obtain ⟨q', hw', hrest⟩ := ih (h.recorded.target hl₁) hx₁ hw
    exact ⟨q', by rw [walk?, hl₁, Option.bind_some, hw'], hrest⟩

end Kept

/-- Widening leaves every path from the root and the token at its end. -/
theorem exists_walk?_of_widen (hb : b.Closed) {removed : Dictionary String (List Char)}
    (h : b.widen removed = some a) : root < a.size ∧ a.InRange ∧
      ∀ keys x token, b.walk? root keys = some x → b.tokenOf x = some token →
        ∃ q, a.walk? root keys = some q ∧ a.tokenOf q = some token := by
  obtain ⟨memo, hkept⟩ := widen_keeps (fun h _ _ _ hl => h.recorded.target hl)
    (fun h hs ht _ hadd => Kept.addNarrowedLink _ h hs ht hadd) (Kept.start hb.inRange) h
  have hroot : root < a.size := Nat.lt_of_lt_of_le hb.root hkept.recorded.size_le
  refine ⟨hroot, fun s k t hl => hkept.recorded.target hl, fun keys x token hw ht => ?_⟩
  obtain ⟨q, hq, hlt, hx⟩ := hkept.exists_walk? hroot (.self hb.root) hw
  exact ⟨q, hq, (hkept.follows q hlt).token hx ht⟩

end Syntagma.Arena
