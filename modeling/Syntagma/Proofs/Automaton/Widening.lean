import Syntagma.Proofs.Automaton.Merging

/-! Widening. In the end every state stands for some states from before, the root for the root, and
a key leads on from it exactly where, for some state that it stands for, the key itself or the class
that lost it did. -/

namespace Syntagma.Arena

variable {lost : String → Char → Prop} {b a a' a'' : Arena} {memo memo' memo'' : Merged}
  {state q x : StateId} {removed : Dictionary String (List Char)}

/-! ### What widening does -/

/-- A link is added where there is none, and otherwise leads to a merged state, if to another one. -/
theorem addNarrowedLink_cases {target : StateId} {key : String}
    (h : addNarrowedLink state target key a memo = (a', memo')) :
    (a.link? state key = none ∧ a' = a.setLink state key target ∧ memo' = memo) ∨
      (a.link? state key = some target ∧ a' = a ∧ memo' = memo) ∨
      ∃ existing merged a₁, a.link? state key = some existing ∧
        merge existing target a memo = (merged, a₁, memo') ∧ a' = a₁.setLink state key merged := by
  unfold addNarrowedLink at h
  cases hl : a.link? state key with
  | none =>
    rw [hl] at h
    cases h
    exact .inl ⟨rfl, rfl, rfl⟩
  | some existing =>
    rw [hl] at h
    dsimp only at h
    split at h
    next he =>
      cases h
      exact .inr (.inl ⟨congrArg some he, rfl, rfl⟩)
    next =>
      rcases hm : merge existing target a memo with ⟨merged, a₁, memo₁⟩
      rw [hm] at h
      cases h
      exact .inr (.inr ⟨existing, merged, a₁, rfl, hm, rfl⟩)

/-- What each class has lost. -/
def lostOf (removed : Dictionary String (List Char)) (key : String) (c : Char) : Prop :=
  c ∈ (removed.get? key).getD []

/-- Where the links of a state lead to, with the characters that their classes have lost. -/
def lostLinks (removed : Dictionary String (List Char)) (a : Arena) (state : StateId) :
    List (StateId × Char) :=
  (a.linksOf state).entries.flatMap (fun e => ((removed.get? e.1).getD []).map (fun c => (e.2, c)))

theorem mem_lostLinks {t : StateId} {c : Char} :
    (t, c) ∈ lostLinks removed a state ↔ ∃ key, a.link? state key = some t ∧ lostOf removed key c := by
  simp only [lostLinks, List.mem_flatMap, List.mem_map, Prod.mk.injEq]
  constructor
  · rintro ⟨e, he, d, hd, rfl, rfl⟩
    exact ⟨e.1, Dictionary.mem_entries_iff.1 he, hd⟩
  · rintro ⟨key, hl, hc⟩
    exact ⟨(key, t), Dictionary.mem_entries_iff.2 hl, c, hc, rfl, rfl⟩

theorem widenState_eq_foldl (removed : Dictionary String (List Char)) (state : StateId) (a : Arena)
    (memo : Merged) : widenState removed state a memo = (lostLinks removed a state).foldl
      (fun acc e => addNarrowedLink state e.1 (String.singleton e.2) acc.1 acc.2) (a, memo) := by
  rw [lostLinks, List.foldl_flatMap]
  simp only [List.foldl_map]
  rfl

/-- What widening one state keeps is true in the end, when every state has been widened. -/
theorem widenFrom_keeps {good : StateId → Arena → Merged → Prop} {steps : Nat}
    (hstep : ∀ {state a memo a' memo'}, state < a.size → good state a memo →
      widenState removed state a memo = (a', memo') → good (state + 1) a' memo')
    (h : good state a memo) (hw : widenFrom removed steps state a memo = some a') :
    ∃ last memo', a'.size ≤ last ∧ good last a' memo' := by
  induction steps generalizing state a memo with
  | zero => exact nomatch hw
  | succ steps ih =>
    unfold widenFrom at hw
    split at hw
    next hs => exact ih (hstep hs h rfl) hw
    next hs =>
      cases hw
      exact ⟨state, memo, Nat.le_of_not_lt hs, h⟩

/-- What adding a link for a lost character keeps is true in the end. -/
theorem widen_keeps {good : Arena → Merged → Prop}
    (hrange : ∀ {a memo}, good a memo → a.InRange)
    (hadd : ∀ {a memo a' memo' state target c}, good a memo → state < a.size → target < a.size →
      (∃ key, lostOf removed key c) →
      addNarrowedLink state target (String.singleton c) a memo = (a', memo') →
      good a' memo' ∧ a.size ≤ a'.size)
    (h : good b ∅) (hw : b.widen removed = some a) : ∃ memo, good a memo := by
  have hfold {state : StateId} {l : List (StateId × Char)} {a : Arena} {memo : Merged}
      (h : good a memo) (hs : state < a.size)
      (hl : ∀ e ∈ l, e.1 < a.size ∧ ∃ key, lostOf removed key e.2) :
      good (l.foldl (fun acc e => addNarrowedLink state e.1 (String.singleton e.2) acc.1 acc.2)
          (a, memo)).1
        (l.foldl (fun acc e => addNarrowedLink state e.1 (String.singleton e.2) acc.1 acc.2)
          (a, memo)).2 := by
    induction l generalizing a memo with
    | nil => exact h
    | cons e l ih =>
      obtain ⟨ht, hlost⟩ := hl e List.mem_cons_self
      obtain ⟨h₁, hle⟩ := hadd h hs ht hlost rfl
      exact ih h₁ (Nat.lt_of_lt_of_le hs hle) (fun e' he' =>
        ⟨Nat.lt_of_lt_of_le (hl e' (List.mem_cons_of_mem e he')).1 hle,
          (hl e' (List.mem_cons_of_mem e he')).2⟩)
  have hstep {state : StateId} {a : Arena} {memo : Merged} {a' : Arena} {memo' : Merged}
      (hs : state < a.size) (h : good a memo)
      (hw : widenState removed state a memo = (a', memo')) : good a' memo' := by
    rw [widenState_eq_foldl] at hw
    have h' := hfold (l := lostLinks removed a state) h hs (fun e he => by
      obtain ⟨key, hl, hc⟩ := mem_lostLinks.1 he
      exact ⟨hrange h _ _ _ hl, key, hc⟩)
    rwa [hw] at h'
  obtain ⟨_, memo, -, h'⟩ := widenFrom_keeps hstep h hw
  exact ⟨memo, h'⟩

/-! ### Changes around one state -/

/-- The links of one state have been widened, and new states may have been merged for this. -/
structure Spread (b : Arena) (state : StateId) (a : Arena) (memo : Merged) (a' : Arena)
    (memo' : Merged) : Prop where
  size_le : a.size ≤ a'.size
  keeps {e : StateId × StateId} {m : StateId} : memo[e]? = some m → memo'[e]? = some m
  news {e : StateId × StateId} {m : StateId} : memo'[e]? = some m → m < a.size → memo[e]? = some m
  other {q : StateId} : q < a.size → q ≠ state → a'.linksOf q = a.linksOf q
  token {q : StateId} : q < a.size → a'.tokenOf q = a.tokenOf q
  wider {k : String} {t : StateId} : a.link? state k = some t → ∃ t', a'.link? state k = some t' ∧
    ∀ x, Holds b.size memo t x → Holds b.size memo' t' x

namespace Spread

theorem refl (b : Arena) (state : StateId) (a : Arena) (memo : Merged) :
    Spread b state a memo a memo :=
  ⟨Nat.le_refl _, id, fun h _ => h, fun _ _ => rfl, fun _ => rfl, fun h => ⟨_, h, fun _ => id⟩⟩

theorem trans (h : Spread b state a memo a' memo') (h' : Spread b state a' memo' a'' memo'') :
    Spread b state a memo a'' memo'' where
  size_le := Nat.le_trans h.size_le h'.size_le
  keeps he := h'.keeps (h.keeps he)
  news he hm := h.news (h'.news he (Nat.lt_of_lt_of_le hm h.size_le)) hm
  other hq hne := (h'.other (Nat.lt_of_lt_of_le hq h.size_le) hne).trans (h.other hq hne)
  token hq := (h'.token (Nat.lt_of_lt_of_le hq h.size_le)).trans (h.token hq)
  wider hl := by
    obtain ⟨t, ht, hx⟩ := h.wider hl
    obtain ⟨t', ht', hx'⟩ := h'.wider ht
    exact ⟨t', ht', fun x => hx' x ∘ hx x⟩

theorem holds_iff (h : Spread b state a memo a' memo') (hr : Recorded b.size a memo)
    (hq : q < a.size) : Holds b.size memo' q x ↔ Holds b.size memo q x :=
  hr.holds_iff_of_news (fun _ _ => h.keeps) (fun _ _ => h.news) hq

theorem link? (h : Spread b state a memo a' memo') (hq : q < a.size) (hne : q ≠ state)
    (k : String) : a'.link? q k = a.link? q k := by
  rw [Arena.link?, h.other hq hne, Arena.link?]

end Spread

/-- Merging alone widens nothing. -/
theorem Grew.spread (h : Grew a memo a' memo') (hr : Recorded b.size a memo)
    (hs : state < a.size) : Spread b state a memo a' memo' where
  size_le := h.size_le
  keeps := h.keeps
  news := h.news
  other hq _ := h.links hq
  token := h.token
  wider hl := ⟨_, (h.link? hs _).trans hl, fun _ hx => (hr.holds_iff h (hr.target hl)).2 hx⟩

/-! ### One link -/

theorem Whole.congr (h : Whole lost b a memo q) (hl : a'.linksOf q = a.linksOf q)
    (ht : a'.tokenOf q = a.tokenOf q) : Whole lost b a' memo q := by
  have hlink (k : String) : a'.link? q k = a.link? q k := by rw [link?, hl, link?]
  constructor
  · intro x x' k hx hb
    rw [hlink]
    exact h.link hx hb
  · intro x hx hb
    rw [ht]
    exact h.token hx hb
  · intro q' x' k hq hx
    rw [hlink] at hq
    exact h.back hq hx
  · intro token hq
    rw [ht] at hq
    exact h.tokenBack hq

/-- All states are whole. -/
structure Ready (lost : String → Char → Prop) (b a : Arena) (memo : Merged) : Prop where
  recorded : Recorded b.size a memo
  whole (q : StateId) : q < a.size → Whole lost b a memo q

/-- What a new link of a state may lead to, so that the state stays whole: what some link of a state
that it stands for led to. -/
def Justified (lost : String → Char → Prop) (b : Arena) (memo : Merged) (state : StateId)
    (key : String) (target : StateId) : Prop :=
  ∀ x', Holds b.size memo target x' → ∃ x k, Holds b.size memo state x ∧ b.link? x k = some x' ∧
    Stands lost k key

/-- A link is set that leads to whatever it led to before, and to more. -/
theorem Ready.setLink (h : Ready lost b a memo) (hs : state < a.size) {key : String}
    {target : StateId} (ht : target < a.size) (hj : Justified lost b memo state key target)
    (hcover : ∀ old, a.link? state key = some old →
      ∀ x, Holds b.size memo old x → Holds b.size memo target x) :
    Ready lost b (a.setLink state key target) memo ∧
      Spread b state a memo (a.setLink state key target) memo := by
  have hlink := link?_setLink hs key target
  have hrecorded : Recorded b.size (a.setLink state key target) memo := h.recorded.setLink hs ht
  have hwider {k : String} {t : StateId} (hl : a.link? state k = some t) :
      ∃ t', (a.setLink state key target).link? state k = some t' ∧
        ∀ x, Holds b.size memo t x → Holds b.size memo t' x := by
    rw [hlink]
    by_cases hk : k = key
    · subst hk
      exact ⟨target, if_pos ⟨rfl, rfl⟩, hcover t hl⟩
    · exact ⟨t, by rw [if_neg (fun hc => hk hc.2), hl], fun _ => id⟩
  have hother {q : StateId} (hne : q ≠ state) :
      (a.setLink state key target).linksOf q = a.linksOf q := by
    rw [linksOf_setLink hs, if_neg hne]
  refine ⟨⟨hrecorded, fun q hq => ?_⟩,
    ⟨by simp, id, fun he _ => he, fun _ hne => hother hne, fun _ => tokenOf_setLink a _ _ _ _, hwider⟩⟩
  rw [size_setLink] at hq
  have hw := h.whole q hq
  by_cases hne : q = state
  · subst hne
    constructor
    · intro x x' k hx hb
      obtain ⟨t, hl, hx'⟩ := hw.link hx hb
      obtain ⟨t', hl', hall⟩ := hwider hl
      exact ⟨t', hl', hall x' hx'⟩
    · intro x hx hb
      rw [tokenOf_setLink]
      exact hw.token hx hb
    · intro q' x' k hl hx'
      rw [hlink] at hl
      split at hl
      next heq =>
        cases hl
        rw [heq.2]
        exact hj x' hx'
      next => exact hw.back hl hx'
    · intro token hb
      rw [tokenOf_setLink] at hb
      exact hw.tokenBack hb
  · exact hw.congr (hother hne) (tokenOf_setLink a _ _ _ _)

/-- A link is added beside others, merged with the one that stands there. -/
theorem Ready.addNarrowedLink (h : Ready lost b a memo) (hs : state < a.size) {key : String}
    {target : StateId} (ht : target < a.size) (hj : Justified lost b memo state key target)
    (hadd : addNarrowedLink state target key a memo = (a', memo')) :
    Ready lost b a' memo' ∧ Spread b state a memo a' memo' ∧
      ∃ t, a'.link? state key = some t ∧
        ∀ x, Holds b.size memo target x → Holds b.size memo' t x := by
  rcases addNarrowedLink_cases hadd with ⟨hl, rfl, rfl⟩ | ⟨hl, rfl, rfl⟩ |
    ⟨existing, merged, a₁, hl, hr, rfl⟩
  · obtain ⟨hready, hspread⟩ := h.setLink hs ht hj (fun old ho => nomatch hl.symm.trans ho)
    refine ⟨hready, hspread, target, ?_, fun _ => id⟩
    rw [link?_setLink hs, if_pos ⟨rfl, rfl⟩]
  · exact ⟨h, .refl _ _ _ _, target, hl, fun _ => id⟩
  · have hm := merging_merge h.recorded (h.recorded.target hl) ht
    rw [hr] at hm
    have hgrew := hm.grew
    have hs₁ := Nat.lt_of_lt_of_le hs hgrew.size_le
    have hbounds := hm.recorded.bounds hm.done
    have hboth (x : StateId) := hm.recorded.holds_merged_iff hm.done (x := x)
    -- the states before merging are whole still, and the new ones are
    have hready : Ready lost b a₁ memo' := by
      refine ⟨hm.recorded, fun q hq => ?_⟩
      rcases Nat.lt_or_ge q a.size with hlt | hge
      · exact (h.whole q hlt).of_grew h.recorded hgrew hlt
      · exact hm.whole h.recorded (Nat.le_refl _) h.whole hge hq
    have hold (q x : StateId) (hq : q < a.size) := h.recorded.holds_iff hgrew hq (x := x)
    have hlink : a₁.link? state key = some existing := (hgrew.link? hs key).trans hl
    have hj₁ : Justified lost b memo' state key merged := by
      intro x' hx'
      rcases (hboth x').1 hx' with hx' | hx'
      · exact (hready.whole state hs₁).back hlink hx'
      · obtain ⟨x, k, hx, hrest⟩ := hj x' ((hold target x' ht).1 hx')
        exact ⟨x, k, (hold state x hs).2 hx, hrest⟩
    obtain ⟨hready', hspread⟩ := hready.setLink hs₁ hbounds.2.2.2 hj₁ (fun old ho x hx => by
      obtain rfl := Option.some.inj (hlink.symm.trans ho)
      exact (hboth x).2 (.inl hx))
    refine ⟨hready', (hgrew.spread h.recorded hs).trans hspread, merged, ?_, fun x hx => ?_⟩
    · rw [link?_setLink hs₁, if_pos ⟨rfl, rfl⟩]
    · exact (hboth x).2 (.inr ((hold target x ht).2 hx))

/-! ### All links of a state -/

theorem Justified.of_spread {key : String} {target : StateId}
    (h : Justified lost b memo state key target) (hr : Recorded b.size a memo) (hs : state < a.size)
    (ht : target < a.size) (hsp : Spread b state a memo a' memo') :
    Justified lost b memo' state key target := by
  intro x' hx'
  obtain ⟨x, k, hx, hrest⟩ := h x' ((hsp.holds_iff hr ht).1 hx')
  exact ⟨x, k, (hsp.holds_iff hr hs).2 hx, hrest⟩

theorem Ready.foldl_addNarrowedLink {l : List (StateId × Char)}
    (h : Ready lost b a memo) (hs : state < a.size)
    (hl : ∀ e ∈ l, e.1 < a.size ∧ Justified lost b memo state (String.singleton e.2) e.1)
    (hfold : l.foldl (fun (acc : Arena × Merged) e =>
      Arena.addNarrowedLink state e.1 (String.singleton e.2) acc.1 acc.2) (a, memo) = (a', memo')) :
    Ready lost b a' memo' ∧ Spread b state a memo a' memo' ∧
      ∀ e ∈ l, ∃ t, a'.link? state (String.singleton e.2) = some t ∧
        ∀ x, Holds b.size memo e.1 x → Holds b.size memo' t x := by
  induction l generalizing a memo with
  | nil =>
    cases hfold
    exact ⟨h, .refl _ _ _ _, nofun⟩
  | cons e l ih =>
    obtain ⟨he, hj⟩ := hl e List.mem_cons_self
    rcases hadd : Arena.addNarrowedLink state e.1 (String.singleton e.2) a memo with ⟨a₁, memo₁⟩
    obtain ⟨h₁, hsp₁, t, ht, hall⟩ := h.addNarrowedLink hs he hj hadd
    rw [List.foldl_cons, hadd] at hfold
    obtain ⟨h', hsp', hrest⟩ := ih h₁ (Nat.lt_of_lt_of_le hs hsp₁.size_le) (fun e' he' => by
      obtain ⟨hlt, hj'⟩ := hl e' (List.mem_cons_of_mem e he')
      exact ⟨Nat.lt_of_lt_of_le hlt hsp₁.size_le, hj'.of_spread h.recorded hs hlt hsp₁⟩) hfold
    refine ⟨h', hsp₁.trans hsp', List.forall_mem_cons.2 ⟨?_, fun e' he' => ?_⟩⟩
    · obtain ⟨t', ht', hall'⟩ := hsp'.wider ht
      exact ⟨t', ht', fun x hx => hall' x (hall x hx)⟩
    · obtain ⟨t', ht', hall'⟩ := hrest e' he'
      have hlt := (hl e' (List.mem_cons_of_mem e he')).1
      exact ⟨t', ht', fun x hx => hall' x ((hsp₁.holds_iff h.recorded hlt).2 hx)⟩

/-- A state that goes on by every key that stands for one by which a state goes on that it stands
for. -/
def Wide (lost : String → Char → Prop) (b a : Arena) (memo : Merged) (q : StateId) : Prop :=
  ∀ x x' k key, Holds b.size memo q x → b.link? x k = some x' → Stands lost k key →
    ∃ q', a.link? q key = some q' ∧ Holds b.size memo q' x'

theorem Wide.of_spread (h : Wide lost b a memo q) (hr : Recorded b.size a memo)
    (hsp : Spread b state a memo a' memo') (hq : q < a.size) (hne : q ≠ state) :
    Wide lost b a' memo' q := by
  intro x x' k key hx hb hk
  obtain ⟨q', hl, hx'⟩ := h x x' k key ((hsp.holds_iff hr hq).1 hx) hb hk
  exact ⟨q', by rw [hsp.link? hq hne, hl], (hsp.holds_iff hr (hr.target hl)).2 hx'⟩

theorem Ready.widenState (h : Ready (lostOf removed) b a memo) (hs : state < a.size)
    (hself : ∀ key c d, lostOf removed key d → lostOf removed (String.singleton d) c → c = d)
    (hw : Arena.widenState removed state a memo = (a', memo')) :
    Ready (lostOf removed) b a' memo' ∧ Spread b state a memo a' memo' ∧
      Wide (lostOf removed) b a' memo' state := by
  have hwhole := h.whole state hs
  have hjust : ∀ e ∈ lostLinks removed a state, e.1 < a.size ∧
      Justified (lostOf removed) b memo state (String.singleton e.2) e.1 := by
    intro e he
    obtain ⟨key, hl, hc⟩ := mem_lostLinks.1 he
    refine ⟨h.recorded.target hl, fun x' hx' => ?_⟩
    obtain ⟨x, k, hx, hb, hk⟩ := hwhole.back hl hx'
    refine ⟨x, k, hx, hb, .inr ?_⟩
    rcases hk with rfl | ⟨d, hd, rfl⟩
    · exact ⟨e.2, hc, rfl⟩
    · -- the class that a lost character names loses no other one
      rw [hself _ _ _ hd hc]
      exact ⟨d, hd, rfl⟩
  rw [widenState_eq_foldl] at hw
  obtain ⟨h', hsp, hall⟩ := h.foldl_addNarrowedLink hs hjust hw
  refine ⟨h', hsp, fun x x' k key hx hb hk => ?_⟩
  have hx₀ := (hsp.holds_iff h.recorded hs).1 hx
  obtain ⟨q', hl, hx'⟩ := hwhole.link hx₀ hb
  rcases hk with rfl | ⟨c, hc, rfl⟩
  · obtain ⟨t, ht, hwider⟩ := hsp.wider hl
    exact ⟨t, ht, hwider x' hx'⟩
  · obtain ⟨t, ht, hwider⟩ := hall (q', c) (mem_lostLinks.2 ⟨k, hl, hc⟩)
    exact ⟨t, ht, hwider x' hx'⟩

/-! ### All states -/

theorem Ready.widenFrom {steps : Nat} (h : Ready (lostOf removed) b a memo)
    (hself : ∀ key c d, lostOf removed key d → lostOf removed (String.singleton d) c → c = d)
    (hdone : ∀ q < state, q < a.size → Wide (lostOf removed) b a memo q)
    (hw : Arena.widenFrom removed steps state a memo = some a') :
    ∃ memo', Ready (lostOf removed) b a' memo' ∧
      ∀ q < a'.size, Wide (lostOf removed) b a' memo' q := by
  have hstep {state : StateId} {a : Arena} {memo : Merged} {a' : Arena} {memo' : Merged}
      (hs : state < a.size) (h : Ready (lostOf removed) b a memo ∧
        ∀ q < state, q < a.size → Wide (lostOf removed) b a memo q)
      (hw : Arena.widenState removed state a memo = (a', memo')) :
      Ready (lostOf removed) b a' memo' ∧
        ∀ q < state + 1, q < a'.size → Wide (lostOf removed) b a' memo' q := by
    obtain ⟨hready, hdone⟩ := h
    obtain ⟨hready', hsp, hwide⟩ := hready.widenState hs hself hw
    refine ⟨hready', fun q hq _ => ?_⟩
    rcases Nat.lt_succ_iff_lt_or_eq.1 hq with hq | rfl
    · have hlt := Nat.lt_trans hq hs
      exact (hdone q hq hlt).of_spread hready.recorded hsp hlt (Nat.ne_of_lt hq)
    · exact hwide
  obtain ⟨last, memo', hlast, hready, hdone⟩ := widenFrom_keeps hstep ⟨h, hdone⟩ hw
  exact ⟨memo', hready, fun q hq => hdone q (Nat.lt_of_lt_of_le hq hlast) hq⟩

/-- One arena widened to another: each state of the second stands for some of the first, and goes on
and accepts as these do, with lost characters taken in. -/
structure Widened (lost : String → Char → Prop) (b a : Arena) (holds : StateId → StateId → Prop) :
    Prop where
  root (x : StateId) : holds Arena.root x ↔ x = Arena.root
  link {q x x' : StateId} {k key : String} : holds q x → b.link? x k = some x' →
    Stands lost k key → ∃ q', a.link? q key = some q' ∧ holds q' x'
  token {q x : StateId} : holds q x → (b.tokenOf x).isSome → (a.tokenOf q).isSome
  back {q q' x' : StateId} {key : String} : a.link? q key = some q' → holds q' x' →
    ∃ x k, holds q x ∧ b.link? x k = some x' ∧ Stands lost k key
  tokenBack {q : StateId} {token : AcceptToken} : a.tokenOf q = some token →
    ∃ x, holds q x ∧ b.tokenOf x = some token
  closed : a.Closed

theorem exists_widened (hb : b.Closed)
    (hself : ∀ key c d, lostOf removed key d → lostOf removed (String.singleton d) c → c = d)
    (h : b.widen removed = some a) : ∃ holds, Widened (lostOf removed) b a holds := by
  have hempty := recorded_empty hb.inRange
  have hstart : Ready (lostOf removed) b b (∅ : Merged) := by
    refine ⟨hempty, fun q hq => ?_⟩
    have hsame (t : StateId) (ht : t < b.size) (x : StateId) :
        Holds b.size (∅ : Merged) t x ↔ x = t := hempty.holds_self_iff ht
    constructor
    · intro x x' k hx hl
      obtain rfl := (hsame q hq x).1 hx
      exact ⟨x', hl, .self (hb.target hl).1⟩
    · intro x hx ht
      rwa [(hsame q hq x).1 hx] at ht
    · intro q' x' k hl hx'
      obtain rfl := (hsame q' (hb.target hl).1 x').1 hx'
      exact ⟨q, k, .self hq, hl, .inl rfl⟩
    · intro token ht
      exact ⟨q, .self hq, ht⟩
  obtain ⟨memo, hready, hwide⟩ := hstart.widenFrom hself
    (fun q hq => absurd hq (Nat.not_lt_zero q)) h
  have hlt {q x : StateId} (hx : Holds b.size memo q x) : q < a.size := by
    cases hx with
    | self hn => exact Nat.lt_of_lt_of_le hn hready.recorded.size_le
    | first he => exact (hready.recorded.bounds he).2.2.2
    | second he => exact (hready.recorded.bounds he).2.2.2
  have hroot (x : StateId) : Holds b.size memo Arena.root x ↔ x = Arena.root :=
    hready.recorded.holds_self_iff hb.root
  refine ⟨Holds b.size memo, hroot, fun hx hl hk => hwide _ (hlt hx) _ _ _ _ hx hl hk,
    fun hx => (hready.whole _ (hlt hx)).token hx,
    fun hl => (hready.whole _ (lt_size_of_link? hl)).back hl,
    fun ht => (hready.whole _ (lt_size_of_tokenOf ht)).tokenBack ht, ?_⟩
  refine ⟨Nat.lt_of_lt_of_le hb.root hready.recorded.size_le, fun {q t k} hl => ?_⟩
  refine ⟨hready.recorded.target hl, ?_⟩
  -- a link to the root would come from one
  rintro rfl
  obtain ⟨x, key, -, hl', -⟩ :=
    (hready.whole _ (lt_size_of_link? hl)).back hl ((hroot Arena.root).2 rfl)
  exact (hb.target hl').2 rfl

end Syntagma.Arena
