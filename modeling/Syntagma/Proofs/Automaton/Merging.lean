import Mathlib.Data.Finset.Card
import Mathlib.Data.Finset.Prod
import Std.Data.HashMap.Lemmas
import Syntagma.Proofs.Automaton.Arena
import Syntagma.Proofs.Dictionary

/-! Merging of states. A merged state has the links of its two parts, where both have one a link to the
state merged from both ends, and the token of its first part before that of the second. It stands for
what both of its parts stand for, and goes on and accepts as these do. Merging two states takes no
more steps than there are pairs of states. -/

namespace Syntagma.Arena

variable {n : Nat} {memo memo' memo'' : Merged} {a a' a'' b : Arena} {q x : StateId}

/-! ### What a state stands for -/

/-- The states of the first arena, which has `n` of them, that a state has been merged from. -/
inductive Holds (n : Nat) (memo : Merged) : StateId → StateId → Prop where
  | self {x : StateId} (h : x < n) : Holds n memo x x
  | first {p s m x : StateId} (h : memo[(p, s)]? = some m) (hx : Holds n memo p x) :
    Holds n memo m x
  | second {p s m x : StateId} (h : memo[(p, s)]? = some m) (hx : Holds n memo s x) :
    Holds n memo m x

/-- Every merged state was new when it was made, and was made for one pair. -/
structure Recorded (n : Nat) (a : Arena) (memo : Merged) : Prop where
  size_le : n ≤ a.size
  bounds {p s m : StateId} : memo[(p, s)]? = some m → p < m ∧ s < m ∧ n ≤ m ∧ m < a.size
  inj {e e' : StateId × StateId} {m : StateId} : memo[e]? = some m → memo[e']? = some m → e = e'
  target {s t : StateId} {k : String} : a.link? s k = some t → t < a.size

/-- The arena and the record have gone on; the states that were there are as they were. -/
structure Grew (a : Arena) (memo : Merged) (a' : Arena) (memo' : Merged) : Prop where
  size_le : a.size ≤ a'.size
  keeps {e : StateId × StateId} {m : StateId} : memo[e]? = some m → memo'[e]? = some m
  news {e : StateId × StateId} {m : StateId} : memo'[e]? = some m → m < a.size → memo[e]? = some m
  links {q : StateId} : q < a.size → a'.linksOf q = a.linksOf q
  token {q : StateId} : q < a.size → a'.tokenOf q = a.tokenOf q

namespace Grew

theorem refl (a : Arena) (memo : Merged) : Grew a memo a memo :=
  ⟨Nat.le_refl _, id, fun h _ => h, fun _ => rfl, fun _ => rfl⟩

theorem trans (h : Grew a memo a' memo') (h' : Grew a' memo' a'' memo'') :
    Grew a memo a'' memo'' where
  size_le := Nat.le_trans h.size_le h'.size_le
  keeps he := h'.keeps (h.keeps he)
  news he hm := h.news (h'.news he (Nat.lt_of_lt_of_le hm h.size_le)) hm
  links hq := (h'.links (Nat.lt_of_lt_of_le hq h.size_le)).trans (h.links hq)
  token hq := (h'.token (Nat.lt_of_lt_of_le hq h.size_le)).trans (h.token hq)

theorem link? (h : Grew a memo a' memo') (hq : q < a.size) (k : String) :
    a'.link? q k = a.link? q k := by
  rw [Arena.link?, h.links hq, Arena.link?]

end Grew

theorem recorded_empty (ha : a.InRange) : Recorded a.size a ∅ :=
  ⟨Nat.le_refl _, fun he => by simp at he, fun he => by simp at he, fun hl => ha _ _ _ hl⟩

namespace Recorded

theorem holds_self_iff (h : Recorded n a memo) (hq : q < n) : Holds n memo q x ↔ x = q := by
  constructor
  · intro hx
    cases hx with
    | self => rfl
    | first he => exact absurd hq (Nat.not_lt.2 (h.bounds he).2.2.1)
    | second he => exact absurd hq (Nat.not_lt.2 (h.bounds he).2.2.1)
  · rintro rfl
    exact .self hq

theorem holds_merged_iff (h : Recorded n a memo) {p s m : StateId}
    (hm : memo[(p, s)]? = some m) :
    Holds n memo m x ↔ Holds n memo p x ∨ Holds n memo s x := by
  constructor
  · intro hx
    cases hx with
    | self hn => exact absurd hn (Nat.not_lt.2 (h.bounds hm).2.2.1)
    | first he hx =>
      cases h.inj he hm
      exact .inl hx
    | second he hx =>
      cases h.inj he hm
      exact .inr hx
  · exact fun hx => hx.elim (.first hm) (.second hm)

/-- What is recorded later changes nothing about what a state stands for. -/
theorem holds_iff_of_news (h : Recorded n a memo)
    (hkeeps : ∀ (e : StateId × StateId) (m : StateId), memo[e]? = some m → memo'[e]? = some m)
    (hnews : ∀ (e : StateId × StateId) (m : StateId), memo'[e]? = some m → m < a.size →
      memo[e]? = some m) (hq : q < a.size) : Holds n memo' q x ↔ Holds n memo q x := by
  constructor
  · intro hx
    induction hx with
    | self hn => exact .self hn
    | first he _ ih =>
      have he := hnews _ _ he hq
      exact .first he (ih (Nat.lt_trans (h.bounds he).1 hq))
    | second he _ ih =>
      have he := hnews _ _ he hq
      exact .second he (ih (Nat.lt_trans (h.bounds he).2.1 hq))
  · intro hx
    clear hq
    induction hx with
    | self hn => exact .self hn
    | first he _ ih => exact .first (hkeeps _ _ he) ih
    | second he _ ih => exact .second (hkeeps _ _ he) ih

theorem holds_iff (h : Recorded n a memo) (hg : Grew a memo a' memo') (hq : q < a.size) :
    Holds n memo' q x ↔ Holds n memo q x :=
  h.holds_iff_of_news (fun _ _ => hg.keeps) (fun _ _ => hg.news) hq

end Recorded

/-- A link to a state that is there leaves the record in order. -/
theorem Recorded.setLink (h : Recorded n a memo) {state target : StateId} (hs : state < a.size)
    (ht : target < a.size) {key : String} : Recorded n (a.setLink state key target) memo where
  size_le := by simpa using h.size_le
  bounds he := by simpa using h.bounds he
  inj := h.inj
  target {q t k} hl := by
    rw [link?_setLink hs] at hl
    rw [size_setLink]
    split at hl
    · cases hl
      exact ht
    · exact h.target hl

/-- A key for another, once classes have lost characters: the same, or for one such character. -/
def Stands (lost : String → Char → Prop) (key other : String) : Prop :=
  other = key ∨ ∃ c, lost key c ∧ other = String.singleton c

/-- A state goes on and accepts as those do that it stands for, and only so. -/
structure Whole (lost : String → Char → Prop) (b a : Arena) (memo : Merged) (q : StateId) :
    Prop where
  link {x x' : StateId} {k : String} : Holds b.size memo q x → b.link? x k = some x' →
    ∃ q', a.link? q k = some q' ∧ Holds b.size memo q' x'
  token {x : StateId} : Holds b.size memo q x → (b.tokenOf x).isSome → (a.tokenOf q).isSome
  back {q' x' : StateId} {k : String} : a.link? q k = some q' → Holds b.size memo q' x' →
    ∃ x key, Holds b.size memo q x ∧ b.link? x key = some x' ∧ Stands lost key k
  tokenBack {token : AcceptToken} : a.tokenOf q = some token →
    ∃ x, Holds b.size memo q x ∧ b.tokenOf x = some token

variable {lost : String → Char → Prop}

theorem Whole.of_grew (h : Whole lost b a memo q) (hr : Recorded b.size a memo)
    (hg : Grew a memo a' memo') (hq : q < a.size) : Whole lost b a' memo' q where
  link hx hl := by
    obtain ⟨q', hl', hx'⟩ := h.link ((hr.holds_iff hg hq).1 hx) hl
    exact ⟨q', by rw [hg.link? hq, hl'], (hr.holds_iff hg (hr.target hl')).2 hx'⟩
  token hx ht := by
    rw [hg.token hq]
    exact h.token ((hr.holds_iff hg hq).1 hx) ht
  back hl hx' := by
    rw [hg.link? hq] at hl
    obtain ⟨x, key, hx, hb⟩ := h.back hl ((hr.holds_iff hg (hr.target hl)).1 hx')
    exact ⟨x, key, (hr.holds_iff hg hq).2 hx, hb⟩
  tokenBack ht := by
    rw [hg.token hq] at ht
    obtain ⟨x, hx, hb⟩ := h.tokenBack ht
    exact ⟨x, (hr.holds_iff hg hq).2 hx, hb⟩

/-! ### What a merged state is made of -/

/-- A link of a merged state from the links of its parts: the only one there is, or one to the state
that was merged from both ends. -/
inductive Joins (memo : Merged) : Option StateId → Option StateId → Option StateId → Prop where
  | neither : Joins memo none none none
  | first (x : StateId) : Joins memo (some x) none (some x)
  | second (y : StateId) : Joins memo none (some y) (some y)
  | same (x : StateId) : Joins memo (some x) (some x) (some x)
  | both {x y m : StateId} (h : memo[(x, y)]? = some m) : Joins memo (some x) (some y) (some m)

theorem Joins.mono {x y m : Option StateId} (h : Joins memo x y m)
    (hkeeps : ∀ (e : StateId × StateId) (m : StateId), memo[e]? = some m → memo'[e]? = some m) :
    Joins memo' x y m := by
  cases h with
  | neither => exact .neither
  | first x => exact .first x
  | second y => exact .second y
  | same x => exact .same x
  | both h => exact .both (hkeeps _ _ h)

/-- The state `m` was merged from `p` and `s`, two of the first `N` states. -/
structure Made (N : Nat) (a : Arena) (memo : Merged) (p s m : StateId) : Prop where
  left : p < N
  right : s < N
  done : memo[(p, s)]? = some m
  link (k : String) : Joins memo (a.link? p k) (a.link? s k) (a.link? m k)
  token : a.tokenOf m = (a.tokenOf p <|> a.tokenOf s)

variable {N : Nat} {p s m : StateId}

theorem Made.of_grew (h : Made N a memo p s m) (hN : N ≤ a.size) (hm : m < a.size)
    (hg : Grew a memo a' memo') : Made N a' memo' p s m where
  left := h.left
  right := h.right
  done := hg.keeps h.done
  link k := by
    rw [hg.link? (Nat.lt_of_lt_of_le h.left hN), hg.link? (Nat.lt_of_lt_of_le h.right hN),
      hg.link? hm]
    exact (h.link k).mono (fun _ _ => hg.keeps)
  token := by
    rw [hg.token (Nat.lt_of_lt_of_le h.left hN), hg.token (Nat.lt_of_lt_of_le h.right hN),
      hg.token hm, h.token]

/-- A merged state is whole if its parts are. -/
theorem Made.whole (h : Made N a memo p s m) (hr : Recorded b.size a memo)
    (hp : Whole lost b a memo p) (hs : Whole lost b a memo s) : Whole lost b a memo m where
  link {x x' k} hx hl := by
    have hjoins := h.link k
    rcases (hr.holds_merged_iff h.done).1 hx with hx | hx
    · obtain ⟨p', hl', hx'⟩ := hp.link hx hl
      rw [hl'] at hjoins
      generalize a.link? s k = s' at hjoins
      generalize a.link? m k = q' at hjoins
      cases hjoins with
      | first | same => exact ⟨p', rfl, hx'⟩
      | both hm => exact ⟨_, rfl, .first hm hx'⟩
    · obtain ⟨s', hl', hx'⟩ := hs.link hx hl
      rw [hl'] at hjoins
      generalize a.link? p k = p' at hjoins
      generalize a.link? m k = q' at hjoins
      cases hjoins with
      | second | same => exact ⟨s', rfl, hx'⟩
      | both hm => exact ⟨_, rfl, .second hm hx'⟩
  token {x} hx hb := by
    rw [h.token]
    rcases (hr.holds_merged_iff h.done).1 hx with hx | hx
    · obtain ⟨y, hy⟩ := Option.isSome_iff_exists.1 (hp.token hx hb)
      simp [hy]
    · obtain ⟨y, hy⟩ := Option.isSome_iff_exists.1 (hs.token hx hb)
      cases a.tokenOf p <;> simp [hy]
  back {q' x' k} hl hx' := by
    have hjoins := h.link k
    rw [hl] at hjoins
    have hfirst {p' : StateId} (hl' : a.link? p k = some p') (hx' : Holds b.size memo p' x') :
        ∃ x key, Holds b.size memo m x ∧ b.link? x key = some x' ∧ Stands lost key k := by
      obtain ⟨x, key, hx, hrest⟩ := hp.back hl' hx'
      exact ⟨x, key, .first h.done hx, hrest⟩
    have hsecond {s' : StateId} (hl' : a.link? s k = some s') (hx' : Holds b.size memo s' x') :
        ∃ x key, Holds b.size memo m x ∧ b.link? x key = some x' ∧ Stands lost key k := by
      obtain ⟨x, key, hx, hrest⟩ := hs.back hl' hx'
      exact ⟨x, key, .second h.done hx, hrest⟩
    generalize hl₁ : a.link? p k = p' at hjoins
    generalize hl₂ : a.link? s k = s' at hjoins
    cases hjoins with
    | first | same => exact hfirst hl₁ hx'
    | second => exact hsecond hl₂ hx'
    | both hm => exact ((hr.holds_merged_iff hm).1 hx').elim (hfirst hl₁) (hsecond hl₂)
  tokenBack {token} ht := by
    rw [h.token] at ht
    cases hp' : a.tokenOf p with
    | some y =>
      rw [hp'] at ht
      cases ht
      obtain ⟨x, hx, hb⟩ := hp.tokenBack hp'
      exact ⟨x, .first h.done hx, hb⟩
    | none =>
      rw [hp'] at ht
      obtain ⟨x, hx, hb⟩ := hs.tokenBack ht
      exact ⟨x, .second h.done hx, hb⟩

/-! ### The pairs that are left -/

/-- How many pairs of the first `size` states have no merged state yet. -/
def missing (size : Nat) (memo : Merged) : Nat :=
  ((Finset.range size ×ˢ Finset.range size).filter (fun e => memo[e]? = none)).card

theorem missing_le_of_keeps (size : Nat)
    (h : ∀ (e : StateId × StateId) (m : StateId), memo[e]? = some m → memo'[e]? = some m) :
    missing size memo' ≤ missing size memo := by
  refine Finset.card_le_card (fun e he => ?_)
  rw [Finset.mem_filter] at he ⊢
  refine ⟨he.1, ?_⟩
  cases hm : memo[e]? with
  | none => rfl
  | some m => exact nomatch he.2.symm.trans (h e m hm)

theorem missing_insert_lt {size p s m : Nat} (hp : p < size) (hs : s < size)
    (h : memo[(p, s)]? = none) : missing size (memo.insert (p, s) m) < missing size memo := by
  refine Finset.card_lt_card (Finset.ssubset_iff_of_subset ?_ |>.2 ⟨(p, s), ?_, ?_⟩)
  · intro e he
    rw [Finset.mem_filter, Std.HashMap.getElem?_insert] at he
    rw [Finset.mem_filter]
    refine ⟨he.1, ?_⟩
    by_cases heq : (p, s) = e
    · exact heq ▸ h
    · simpa [heq] using he.2
  · exact Finset.mem_filter.2 ⟨by simp [hp, hs], h⟩
  · simp

theorem missing_le (size : Nat) (memo : Merged) : missing size memo ≤ size * size := by
  refine Nat.le_trans (Finset.card_filter_le _ _) ?_
  simp

/-! ### Merging two states -/

mutual

/-- What merging two states comes to when nothing bounds its depth. -/
inductive Merges : StateId → StateId → Arena → Merged → StateId × Arena × Merged → Prop where
  | known {p s m : StateId} {a : Arena} {memo : Merged} (h : memo[(p, s)]? = some m) :
    Merges p s a memo (m, a, memo)
  | anew {p s : StateId} {a : Arena} {memo : Merged} {r : Links × Arena × Merged}
    (h : memo[(p, s)]? = none)
    (hl : MergesLinks (a.linksOf p) (a.linksOf s).entries
      (a.linksOf p, a.grown, memo.insert (p, s) a.size) r) :
    Merges p s a memo (a.size,
      r.2.1.modify a.size (fun _ => ⟨r.1, a.tokenOf p <|> a.tokenOf s⟩), r.2.2)

/-- What putting further links to those of a first state comes to. -/
inductive MergesLinks : Links → List (String × StateId) → Links × Arena × Merged →
    Links × Arena × Merged → Prop where
  | nil {first : Links} (acc : Links × Arena × Merged) : MergesLinks first [] acc acc
  | alone {first : Links} {k : String} {t : StateId} {l : List (String × StateId)}
    {acc r : Links × Arena × Merged} (hk : first.get? k = none)
    (h : MergesLinks first l (acc.1.insert k t, acc.2) r) : MergesLinks first ((k, t) :: l) acc r
  | same {first : Links} {k : String} {t : StateId} {l : List (String × StateId)}
    {acc r : Links × Arena × Merged} (hk : first.get? k = some t)
    (h : MergesLinks first l acc r) : MergesLinks first ((k, t) :: l) acc r
  | nested {first : Links} {k : String} {existing t : StateId} {l : List (String × StateId)}
    {acc r : Links × Arena × Merged} {u : StateId × Arena × Merged}
    (hk : first.get? k = some existing) (hne : existing ≠ t)
    (hm : Merges existing t acc.2.1 acc.2.2 u)
    (h : MergesLinks first l (acc.1.insert k u.1, u.2) r) : MergesLinks first ((k, t) :: l) acc r

end

/-- One link of the second state is put to those of the first. -/
def mergeLink (merge : StateId → StateId → Arena → Merged → StateId × Arena × Merged)
    (first : Links) (acc : Links × Arena × Merged) (e : String × StateId) :
    Links × Arena × Merged :=
  match first.get? e.1 with
  | none => (acc.1.insert e.1 e.2, acc.2)
  | some existing =>
    if existing = e.2 then acc
    else
      let r := merge existing e.2 acc.2.1 acc.2.2
      (acc.1.insert e.1 r.1, r.2)

/-- The arena with a new state in front of the merging of two others. -/
def mergeLinks (depth : Nat) (primary secondary : StateId) (a : Arena) (memo : Merged) :
    Links × Arena × Merged :=
  (a.linksOf secondary).entries.foldl (mergeLink (mergeWithin depth) (a.linksOf primary))
    (a.linksOf primary, a.grown, memo.insert (primary, secondary) a.size)

theorem mergeWithin_succ (depth : Nat) (primary secondary : StateId) (a : Arena) (memo : Merged) :
    mergeWithin (depth + 1) primary secondary a memo =
      match memo[(primary, secondary)]? with
      | some done => (done, a, memo)
      | none =>
        let r := mergeLinks depth primary secondary a memo
        (a.size, r.2.1.modify a.size
          (fun _ => ⟨r.1, a.tokenOf primary <|> a.tokenOf secondary⟩), r.2.2) := by
  have hstep : (fun (acc : Links × Arena × Merged) (e : String × StateId) =>
      match acc, e with
      | (links, a', memo'), (key, target) =>
        match (a.linksOf primary).get? key with
        | none => (links.insert key target, a', memo')
        | some existing =>
          if existing = target then (links, a', memo')
          else
            let r := mergeWithin depth existing target a' memo'
            (links.insert key r.1, r.2.1, r.2.2)) =
      mergeLink (mergeWithin depth) (a.linksOf primary) := by
    funext acc e
    rfl
  rw [mergeWithin]
  cases memo[(primary, secondary)]? with
  | some done => rfl
  | none =>
    unfold mergeLinks
    rw [← hstep]
    rfl

/-- The record is in order, and no link leads out of the first `N` states. -/
structure Enclosed (n N : Nat) (a : Arena) (memo : Merged) : Prop where
  recorded : Recorded n a memo
  le_size : N ≤ a.size
  closed (q : StateId) (k : String) (t : StateId) : q < N → a.link? q k = some t → t < N

theorem Enclosed.of_grew (h : Enclosed n N a memo) (hr : Recorded n a' memo')
    (hg : Grew a memo a' memo') : Enclosed n N a' memo' where
  recorded := hr
  le_size := Nat.le_trans h.le_size hg.size_le
  closed q k t hq hl := by
    rw [hg.link? (Nat.lt_of_lt_of_le hq h.le_size)] at hl
    exact h.closed q k t hq hl

theorem Recorded.enclosed (h : Recorded n a memo) : Enclosed n a.size a memo :=
  ⟨h, Nat.le_refl _, fun _ _ _ _ hl => h.target hl⟩

/-- What merging two states gives: a merged state for them, and other merged states behind it, not
more than there were pairs left. -/
structure Merging (n N : Nat) (a : Arena) (memo : Merged) (p s : StateId)
    (r : StateId × Arena × Merged) : Prop where
  runs : Merges p s a memo r
  recorded : Recorded n r.2.1 r.2.2
  grew : Grew a memo r.2.1 r.2.2
  done : r.2.2[(p, s)]? = some r.1
  count : r.2.1.size + missing N r.2.2 ≤ a.size + missing N memo
  made (q : StateId) : a.size ≤ q → q < r.2.1.size → ∃ p s, Made N r.2.1 r.2.2 p s q

/-- The links of the first state after those of some list were put to them. -/
structure Combined (n N : Nat) (a : Arena) (memo : Merged) (first : Links)
    (put : List (String × StateId)) (acc : Links × Arena × Merged) : Prop where
  recorded : Recorded n acc.2.1 acc.2.2
  grew : Grew a memo acc.2.1 acc.2.2
  count : acc.2.1.size + missing N acc.2.2 ≤ a.size + missing N memo
  made (q : StateId) : a.size ≤ q → q < acc.2.1.size → ∃ p s, Made N acc.2.1 acc.2.2 p s q
  link (k : String) : Joins acc.2.2 (first.get? k) (Dictionary.lookup k put) (acc.1.get? k)

section Links

variable {first : Links} {put : List (String × StateId)} {acc : Links × Arena × Merged}

theorem combined_nil (h : Recorded n a memo) (first : Links) :
    Combined n N a memo first [] (first, a, memo) where
  recorded := h
  grew := .refl a memo
  count := Nat.le_refl _
  made q hq hlt := absurd hlt (Nat.not_lt.2 hq)
  link k := by
    cases hf : first.get? k with
    | none => simpa [hf, Dictionary.lookup] using Joins.neither
    | some t => simpa [hf, Dictionary.lookup] using Joins.first t

/-- With one more link put to the others, whatever new states this takes. -/
theorem Combined.insert (h : Combined n N a memo first put acc) (hN : N ≤ a.size) {k : String}
    {t target : StateId} (hk : Dictionary.lookup k put = none) {a' : Arena} {memo' : Merged}
    (hr : Recorded n a' memo') (hg : Grew acc.2.1 acc.2.2 a' memo')
    (hcount : a'.size + missing N memo' ≤ acc.2.1.size + missing N acc.2.2)
    (hmade : ∀ q, acc.2.1.size ≤ q → q < a'.size → ∃ p s, Made N a' memo' p s q)
    (hj : Joins memo' (first.get? k) (some t) (some target)) :
    Combined n N a memo first (put ++ [(k, t)]) (acc.1.insert k target, a', memo') where
  recorded := hr
  grew := h.grew.trans hg
  count := Nat.le_trans hcount h.count
  made q hq hlt := by
    rcases Nat.lt_or_ge q acc.2.1.size with hq' | hq'
    · obtain ⟨p, s, hmade⟩ := h.made q hq hq'
      exact ⟨p, s, hmade.of_grew (Nat.le_trans hN h.grew.size_le) hq' hg⟩
    · exact hmade q hq' hlt
  link k' := by
    rw [Dictionary.get?_insert, Dictionary.lookup_append, Dictionary.lookup, Dictionary.lookup]
    by_cases hkey : k' = k
    · subst hkey
      simpa [hk] using hj
    · simpa [hkey] using (h.link k').mono (fun _ _ => hg.keeps)

/-- A link that the first state has already. -/
theorem Combined.skip (h : Combined n N a memo first put acc) {k : String} {t : StateId}
    (hk : Dictionary.lookup k put = none) (hf : first.get? k = some t) :
    Combined n N a memo first (put ++ [(k, t)]) acc where
  recorded := h.recorded
  grew := h.grew
  count := h.count
  made := h.made
  link k' := by
    have hold := h.link k'
    rw [Dictionary.lookup_append, Dictionary.lookup, Dictionary.lookup]
    by_cases hkey : k' = k
    · subst hkey
      rw [hk, hf] at hold
      generalize acc.1.get? k' = m at hold
      cases hold with
      | first => simpa [hk, hf] using Joins.same t
    · simpa [hkey] using hold

/-- All links of a list, where two states are merged whenever both have a link. -/
theorem Combined.foldl (merge : StateId → StateId → Arena → Merged → StateId × Arena × Merged)
    {l : List (String × StateId)} (h : Combined n N a memo first put acc) (hN : N ≤ a.size)
    (hfirst : ∀ k t, first.get? k = some t → t < N) (hput : ∀ e ∈ l, e.2 < N)
    (hkeys : ((put ++ l).map (·.1)).Nodup)
    (hmerge : ∀ a' memo', Recorded n a' memo' → Grew a memo a' memo' → ∀ existing < N,
      ∀ t < N, Merging n N a' memo' existing t (merge existing t a' memo')) :
    Combined n N a memo first (put ++ l) (l.foldl (mergeLink merge first) acc) ∧
      MergesLinks first l acc (l.foldl (mergeLink merge first) acc) := by
  induction l generalizing put acc with
  | nil => exact ⟨by simpa using h, .nil acc⟩
  | cons e l ih =>
    obtain ⟨k, t⟩ := e
    have happend : put ++ (k, t) :: l = put ++ [(k, t)] ++ l := by simp
    have ht : t < N := hput (k, t) List.mem_cons_self
    have hk : Dictionary.lookup k put = none := by
      refine Option.not_isSome_iff_eq_none.1 (fun hsome => ?_)
      rw [List.map_append, List.nodup_append] at hkeys
      exact hkeys.2.2 k (Dictionary.isSome_lookup_iff.1 hsome) k List.mem_cons_self rfl
    have hrest {acc' : Links × Arena × Merged}
        (h' : Combined n N a memo first (put ++ [(k, t)]) acc') :=
      ih h' (fun e he => hput e (List.mem_cons_of_mem _ he)) (happend ▸ hkeys)
    rw [List.foldl_cons, happend, mergeLink]
    cases hf : first.get? k with
    | none =>
      have hnone : ∀ q, acc.2.1.size ≤ q → q < acc.2.1.size →
          ∃ p s, Made N acc.2.1 acc.2.2 p s q := fun q hq hlt => absurd hlt (Nat.not_lt.2 hq)
      obtain ⟨hall, hruns⟩ := hrest (h.insert hN hk h.recorded (.refl _ _) (Nat.le_refl _) hnone
        (by rw [hf]; exact .second t))
      exact ⟨hall, .alone hf hruns⟩
    | some existing =>
      by_cases heq : existing = t
      · subst heq
        obtain ⟨hall, hruns⟩ := hrest (h.skip hk hf)
        simp only [if_pos]
        exact ⟨hall, .same hf hruns⟩
      · have hm := hmerge acc.2.1 acc.2.2 h.recorded h.grew existing (hfirst k _ hf) t ht
        obtain ⟨hall, hruns⟩ := hrest (h.insert hN hk hm.recorded hm.grew hm.count hm.made
          (by rw [hf]; exact .both hm.done))
        simp only [if_neg heq]
        exact ⟨hall, .nested hf heq hm.runs hruns⟩

end Links

/-! ### One merging in full -/

section Replaced

variable {m : StateId} (hm : m < a.size) (state : DraftState)

include hm in
theorem linksOf_modify (q : StateId) :
    Arena.linksOf (a.modify m (fun _ => state)) q = if q = m then state.links else a.linksOf q := by
  unfold linksOf
  rw [Array.getElem?_modify]
  by_cases hq : q = m
  · subst hq
    simp [Array.getElem?_eq_getElem hm]
  · simp [hq, Ne.symm hq]

include hm in
theorem tokenOf_modify (q : StateId) :
    Arena.tokenOf (a.modify m (fun _ => state)) q = if q = m then state.token else a.tokenOf q := by
  unfold tokenOf
  rw [Array.getElem?_modify]
  by_cases hq : q = m
  · subst hq
    simp [Array.getElem?_eq_getElem hm]
  · simp [hq, Ne.symm hq]

end Replaced

/-- The record with a new state for a pair. -/
theorem Recorded.insert (h : Recorded n a memo) {p s : StateId} (hp : p < a.size)
    (hs : s < a.size) (hn : memo[(p, s)]? = none) :
    Recorded n a.grown (memo.insert (p, s) a.size) ∧
      Grew a memo a.grown (memo.insert (p, s) a.size) := by
  have hget (e : StateId × StateId) (m : StateId) :
      (memo.insert (p, s) a.size)[e]? = some m ↔
        (e = (p, s) ∧ m = a.size) ∨ (e ≠ (p, s) ∧ memo[e]? = some m) := by
    rw [Std.HashMap.getElem?_insert]
    by_cases he : (p, s) = e
    · subst he
      simp [eq_comm]
    · simp [he, Ne.symm he]
  have hne {e : StateId × StateId} {m : StateId} (he : memo[e]? = some m) : e ≠ (p, s) := by
    rintro rfl
    exact nomatch hn.symm.trans he
  constructor
  · constructor
    · rw [size_grown]
      exact Nat.le_succ_of_le h.size_le
    · intro p' s' m hm
      rw [size_grown]
      rcases (hget _ m).1 hm with ⟨he, rfl⟩ | ⟨-, hm⟩
      · cases he
        exact ⟨hp, hs, h.size_le, Nat.lt_succ_self _⟩
      · obtain ⟨h₁, h₂, h₃, h₄⟩ := h.bounds hm
        exact ⟨h₁, h₂, h₃, Nat.lt_succ_of_lt h₄⟩
    · intro e e' m he he'
      rcases (hget e m).1 he with ⟨rfl, rfl⟩ | ⟨-, he⟩ <;>
        rcases (hget e' _).1 he' with ⟨rfl, hm⟩ | ⟨-, he'⟩
      · rfl
      · exact absurd (h.bounds he').2.2.2 (Nat.lt_irrefl _)
      · exact absurd (hm ▸ (h.bounds he).2.2.2) (Nat.lt_irrefl _)
      · exact h.inj he he'
    · intro q t k hl
      rw [link?_grown] at hl
      rw [size_grown]
      exact Nat.lt_succ_of_lt (h.target hl)
  · constructor
    · simp
    · exact fun he => (hget _ _).2 (.inr ⟨hne he, he⟩)
    · intro e m he hlt
      rcases (hget e m).1 he with ⟨-, rfl⟩ | ⟨-, he⟩
      · exact absurd hlt (Nat.lt_irrefl _)
      · exact he
    · exact fun _ => linksOf_grown a _
    · exact fun _ => tokenOf_grown a _

theorem nodup_keys (d : Links) : (d.entries.map (·.1)).Nodup :=
  d.keys_ascending.imp (fun h he => by simp [he] at h)

/-- The merged state is set once all links were put together. -/
theorem Combined.merging (h : Enclosed n N a memo) (hp : p < N) (hs : s < N)
    (hmemo : memo[(p, s)]? = none) {r : Links × Arena × Merged}
    (hc : Combined n N a.grown (memo.insert (p, s) a.size) (a.linksOf p) (a.linksOf s).entries r)
    (hruns : MergesLinks (a.linksOf p) (a.linksOf s).entries
      (a.linksOf p, a.grown, memo.insert (p, s) a.size) r) :
    Merging n N a memo p s (a.size, r.2.1.modify a.size
      (fun _ => ⟨r.1, a.tokenOf p <|> a.tokenOf s⟩), r.2.2) := by
  have hp' := Nat.lt_of_lt_of_le hp h.le_size
  have hs' := Nat.lt_of_lt_of_le hs h.le_size
  have hg := (h.recorded.insert hp' hs' hmemo).2.trans hc.grew
  have hm : a.size < r.2.1.size := Nat.lt_of_lt_of_le (by simp) hc.grew.size_le
  have hdone : r.2.2[(p, s)]? = some a.size := hc.grew.keeps (by simp)
  have hlinks := linksOf_modify hm ⟨r.1, a.tokenOf p <|> a.tokenOf s⟩
  have htokens := tokenOf_modify hm ⟨r.1, a.tokenOf p <|> a.tokenOf s⟩
  have hsize : (r.2.1.modify a.size (fun _ => ⟨r.1, a.tokenOf p <|> a.tokenOf s⟩)).size =
      r.2.1.size := Array.size_modify
  have hruns := Merges.anew hmemo hruns
  obtain ⟨a', ha'⟩ : ∃ a' : Arena,
    r.2.1.modify a.size (fun _ => ⟨r.1, a.tokenOf p <|> a.tokenOf s⟩) = a' := ⟨_, rfl⟩
  rw [ha'] at hlinks htokens hsize hruns ⊢
  have hne {q : StateId} (hq : q < a.size) : q ≠ a.size := Nat.ne_of_lt hq
  have hother {q : StateId} (hq : q ≠ a.size) (k : String) : a'.link? q k = r.2.1.link? q k := by
    rw [link?, hlinks, if_neg hq, link?]
  have htoken {q : StateId} (hq : q ≠ a.size) : a'.tokenOf q = r.2.1.tokenOf q := by
    rw [htokens, if_neg hq]
  have hjoins (k : String) : Joins r.2.2 (a'.link? p k) (a'.link? s k) (a'.link? a.size k) := by
    rw [hother (hne hp'), hother (hne hs'), hg.link? hp', hg.link? hs', link?, link?, link?, hlinks,
      if_pos rfl]
    exact hc.link k
  have htarget {q t : StateId} {k : String} (hl : a'.link? q k = some t) : t < r.2.1.size := by
    by_cases hq : q = a.size
    · have hlt {x : StateId} (hx : x ≠ a.size) (hl : a'.link? x k = some t) : t < r.2.1.size :=
        hc.recorded.target ((hother hx k).symm.trans hl)
      have hj := hjoins k
      rw [← hq, hl] at hj
      generalize h₁ : a'.link? p k = p' at hj
      generalize h₂ : a'.link? s k = s' at hj
      cases hj with
      | first | same => exact hlt (hne hp') h₁
      | second => exact hlt (hne hs') h₂
      | both he => exact (hc.recorded.bounds he).2.2.2
    · exact hc.recorded.target ((hother hq k).symm.trans hl)
  refine ⟨hruns, ⟨?_, ?_, hc.recorded.inj, ?_⟩, ⟨?_, hg.keeps, hg.news, ?_, ?_⟩, hdone, ?_, ?_⟩
  all_goals simp only [hsize]
  · exact hc.recorded.size_le
  · exact fun he => hc.recorded.bounds he
  · exact fun hl => htarget hl
  · exact hg.size_le
  · intro q hq
    rw [hlinks, if_neg (hne hq), hg.links hq]
  · intro q hq
    rw [htoken (hne hq), hg.token hq]
  · have hcount := hc.count
    have hless := missing_insert_lt (m := a.size) hp hs hmemo
    rw [size_grown] at hcount
    omega
  · intro q hq hlt
    rcases Nat.lt_or_eq_of_le hq with hq | rfl
    · obtain ⟨p', s', hmade⟩ := hc.made q (by rw [size_grown]; exact hq) hlt
      have hp'' := hne (Nat.lt_of_lt_of_le hmade.left h.le_size)
      have hs'' := hne (Nat.lt_of_lt_of_le hmade.right h.le_size)
      refine ⟨p', s', hmade.left, hmade.right, hmade.done, fun k => ?_, ?_⟩
      · rw [hother hp'', hother hs'', hother (Nat.ne_of_gt hq)]
        exact hmade.link k
      · rw [htoken hp'', htoken hs'', htoken (Nat.ne_of_gt hq), hmade.token]
    · refine ⟨p, s, hp, hs, hdone, hjoins, ?_⟩
      rw [htokens, if_pos rfl, htoken (hne hp'), htoken (hne hs'), hg.token hp', hg.token hs']

/-- Merging keeps what there is, and gives merged states for no more pairs than are left. -/
theorem merging_mergeWithin {depth : Nat} (h : Enclosed n N a memo) (hp : p < N) (hs : s < N)
    (hdepth : missing N memo < depth) :
    Merging n N a memo p s (mergeWithin depth p s a memo) := by
  induction depth generalizing p s a memo with
  | zero => exact absurd hdepth (Nat.not_lt_zero _)
  | succ depth ih =>
    rw [mergeWithin_succ]
    cases hmemo : memo[(p, s)]? with
    | some done =>
      exact ⟨.known hmemo, h.recorded, .refl a memo, hmemo, Nat.le_refl _,
        fun q hq hlt => absurd hlt (Nat.not_lt.2 hq)⟩
    | none =>
      have hp' := Nat.lt_of_lt_of_le hp h.le_size
      have hs' := Nat.lt_of_lt_of_le hs h.le_size
      obtain ⟨hr₁, hg₁⟩ := h.recorded.insert hp' hs' hmemo
      have hfirst : ∀ k t, (a.linksOf p).get? k = some t → t < N := fun k t => h.closed p k t hp
      have hput : ∀ e ∈ (a.linksOf s).entries, e.2 < N := fun e he =>
        h.closed s e.1 e.2 hs (Dictionary.mem_entries_iff.1 he)
      have hlt : missing N (memo.insert (p, s) a.size) < missing N memo :=
        missing_insert_lt hp hs hmemo
      obtain ⟨hall, hruns⟩ := (combined_nil hr₁ (a.linksOf p)).foldl (N := N)
        (mergeWithin depth) (l := (a.linksOf s).entries)
        (Nat.le_trans h.le_size hg₁.size_le) hfirst hput (nodup_keys _)
        (fun a' memo' hr hg existing hex t ht => by
          have hle := missing_le_of_keeps N (fun _ _ => hg.keeps)
          exact ih (h.of_grew hr (hg₁.trans hg)) hex ht (by omega))
      exact Combined.merging h hp hs hmemo hall hruns

/-- The steps that merging is given are enough for all pairs of states that are there. -/
theorem merging_merge (h : Recorded n a memo) (hp : p < a.size) (hs : s < a.size) :
    Merging n a.size a memo p s (merge p s a memo) :=
  merging_mergeWithin h.enclosed hp hs (Nat.lt_succ_of_le (missing_le a.size memo))

/-- Merging whole states gives whole states. -/
theorem Merging.whole {r : StateId × Arena × Merged} (h : Merging b.size N a memo p s r)
    (hr : Recorded b.size a memo) (hN : N ≤ a.size) (hw : ∀ q < N, Whole lost b a memo q)
    (hq : a.size ≤ q) (hlt : q < r.2.1.size) : Whole lost b r.2.1 r.2.2 q := by
  obtain ⟨p, s, hmade⟩ := h.made q hq hlt
  have hold (x : StateId) (hx : x < N) : Whole lost b r.2.1 r.2.2 x :=
    (hw x hx).of_grew hr h.grew (Nat.lt_of_lt_of_le hx hN)
  exact hmade.whole h.recorded (hold p hmade.left) (hold s hmade.right)

end Syntagma.Arena
