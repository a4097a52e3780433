/-! Productions and what they derive. The leaves are symbols of their own in the sequences that are
derived; other symbols are replaced by their cases. Leading recursion can be unrolled into tails
without a change to what is derived. -/

namespace Syntagma

/-- Renaming keeps what a case starts with. -/
theorem head?_map_eq_iff {α β : Type} {dom : α → Prop} {f : α → β}
    (hinj : ∀ x y, dom x → dom y → f x = f y → x = y) {self : α} (hself : dom self)
    {case : List α} (hc : ∀ x ∈ case, dom x) :
    (case.map f).head? = some (f self) ↔ case.head? = some self := by
  cases case with
  | nil => simp
  | cons x case =>
    simp only [List.map_cons, List.head?_cons, Option.some.injEq]
    exact ⟨hinj x self (hc x List.mem_cons_self) hself, congrArg f⟩

/-- Which symbols are leaves, and which cases a symbol has. -/
structure Productions (α : Type) where
  leaf : α → Prop
  rule : α → List α → Prop

namespace Productions

variable {α : Type}

/-- What a sequence of symbols derives, symbol by symbol. -/
inductive Derives (G : Productions α) : List α → List α → Prop where
  | nil : Derives G [] []
  | leaf {a : α} {rest w : List α} (ha : G.leaf a) (hrest : Derives G rest w) :
    Derives G (a :: rest) (a :: w)
  | rule {a : α} {case rest u w : List α} (ha : ¬G.leaf a) (hr : G.rule a case)
    (hcase : Derives G case u) (hrest : Derives G rest w) : Derives G (a :: rest) (u ++ w)

/-- What one of the cases of a symbol derives, be the symbol a leaf or not. -/
def Opens (G : Productions α) (a : α) (w : List α) : Prop :=
  ∃ case, G.rule a case ∧ G.Derives case w

/-- What a symbol derives from its own cases, leaf or not. A case that starts with the symbol goes
on from what was derived before. -/
inductive Enters (G : Productions α) (a : α) : List α → Prop where
  | base {case w : List α} (hr : G.rule a case) (hh : case.head? ≠ some a)
    (hcase : G.Derives case w) : Enters G a w
  | again {tail u v : List α} (h : Enters G a u) (hr : G.rule a (a :: tail))
    (htail : G.Derives tail v) : Enters G a (u ++ v)

/-- A sequence put together from what a relation has for each of the symbols. -/
inductive Concat {β : Type} (M : α → List β → Prop) : List α → List β → Prop where
  | nil : Concat M [] []
  | cons {a : α} {rest : List α} {u w : List β} (ha : M a u) (hrest : Concat M rest w) :
    Concat M (a :: rest) (u ++ w)

variable {G : Productions α}

theorem Concat.split {β : Type} {M : α → List β → Prop} {xs ys : List α} {w : List β}
    (h : Concat M (xs ++ ys) w) : ∃ u v, w = u ++ v ∧ Concat M xs u ∧ Concat M ys v := by
  induction xs generalizing w with
  | nil => exact ⟨[], w, rfl, .nil, h⟩
  | cons a xs ih =>
    cases h with
    | cons ha hrest =>
      obtain ⟨u, v, rfl, hu, hv⟩ := ih hrest
      exact ⟨_, v, (List.append_assoc _ _ _).symm, .cons ha hu, hv⟩

theorem concat_singleton {β : Type} {M : α → List β → Prop} {a : α} {w : List β}
    (h : Concat M [a] w) : M a w := by
  cases h with
  | cons ha hrest =>
    cases hrest
    rwa [List.append_nil]

namespace Derives

variable {xs ys u v w : List α} {a : α}

theorem append (h : G.Derives xs u) (h' : G.Derives ys v) : G.Derives (xs ++ ys) (u ++ v) := by
  induction h with
  | nil => exact h'
  | leaf ha _ ih => exact .leaf ha ih
  | rule ha hr hcase _ _ ih =>
    rw [List.append_assoc]
    exact .rule ha hr hcase ih

theorem split (h : G.Derives (xs ++ ys) w) :
    ∃ u v, w = u ++ v ∧ G.Derives xs u ∧ G.Derives ys v := by
  induction xs generalizing w with
  | nil => exact ⟨[], w, rfl, .nil, h⟩
  | cons a xs ih =>
    cases h with
    | leaf ha hrest =>
      obtain ⟨u, v, rfl, hu, hv⟩ := ih hrest
      exact ⟨a :: u, v, rfl, .leaf ha hu, hv⟩
    | rule ha hr hcase hrest =>
      obtain ⟨u, v, rfl, hu, hv⟩ := ih hrest
      exact ⟨_, v, (List.append_assoc _ _ _).symm, .rule ha hr hcase hu, hv⟩

theorem of_rule {case : List α} (ha : ¬G.leaf a) (hr : G.rule a case) (h : G.Derives case w) :
    G.Derives [a] w := by
  rw [← List.append_nil w]
  exact .rule ha hr h .nil

theorem opens (ha : ¬G.leaf a) (h : G.Derives [a] w) : G.Opens a w := by
  cases h with
  | leaf hl => exact absurd hl ha
  | rule _ hr hcase hrest =>
    cases hrest
    rw [List.append_nil]
    exact ⟨_, hr, hcase⟩

theorem of_concat {M : α → List α → Prop} (hM : ∀ a ∈ xs, ∀ w, M a w → G.Derives [a] w)
    (h : Concat M xs w) : G.Derives xs w := by
  induction h with
  | nil => exact .nil
  | cons ha _ ih =>
    exact (hM _ List.mem_cons_self _ ha).append
      (ih (fun a hm => hM a (List.mem_cons_of_mem _ hm)))

/-- Derivation is the least reading of the symbols that has the leaves and follows the rules. -/
theorem interpret {M : α → List α → Prop} (hleaf : ∀ a, G.leaf a → M a [a])
    (hrule : ∀ a case w, ¬G.leaf a → G.rule a case → Concat M case w → M a w)
    (h : G.Derives xs w) : Concat M xs w := by
  induction h with
  | nil => exact .nil
  | leaf ha _ ih => exact .cons (hleaf _ ha) ih
  | rule ha hr _ _ ihcase ih => exact .cons (hrule _ _ _ ha hr ihcase) ih

theorem eq_of_leaf (hleaf : ∀ a ∈ xs, G.leaf a) (h : G.Derives xs w) : w = xs := by
  induction h with
  | nil => rfl
  | leaf _ _ ih => rw [ih (fun a hm => hleaf a (List.mem_cons_of_mem _ hm))]
  | rule ha => exact absurd (hleaf _ List.mem_cons_self) ha

end Derives

/-- A symbol without leading recursion is entered by one of its cases. -/
theorem enters_iff_of_not_recursive {a : α} {w : List α}
    (h : ∀ tail, ¬G.rule a (a :: tail)) :
    G.Enters a w ↔ G.Opens a w := by
  constructor
  · intro he
    cases he with
    | base hr _ hcase => exact ⟨_, hr, hcase⟩
    | again _ hr => exact absurd hr (h _)
  · rintro ⟨case, hr, hcase⟩
    refine .base hr (fun hh => ?_) hcase
    obtain ⟨tail, rfl⟩ := List.head?_eq_some_iff.1 hh
    exact h tail hr

/-- A symbol that is no leaf derives what it derives when it is entered. -/
theorem enters_iff_of_not_leaf {a : α} {w : List α} (ha : ¬G.leaf a) :
    G.Enters a w ↔ G.Opens a w := by
  have hone {case w : List α} (hr : G.rule a case) (h : G.Derives case w) : G.Derives [a] w :=
    .of_rule ha hr h
  constructor
  · intro he
    induction he with
    | base hr _ hcase => exact ⟨_, hr, hcase⟩
    | again _ hr htail ih =>
      obtain ⟨case, hr', hcase⟩ := ih
      exact ⟨_, hr, (hone hr' hcase).append htail⟩
  · -- the reading of `a` by which it can be entered; other symbols are read as they derive
    rintro ⟨first, hfirst, hd⟩
    have hM : Concat (fun b w => G.Derives [b] w ∧ (b = a → G.Enters a w)) [a] w := by
      refine Derives.interpret (fun b hb => ?_) (fun b case w hb hr hc => ?_) (hone hfirst hd)
      · refine ⟨.leaf hb .nil, ?_⟩
        rintro rfl
        exact absurd hb ha
      · have hd : G.Derives case w := .of_concat (fun _ _ _ hm => hm.1) hc
        refine ⟨.of_rule hb hr hd, ?_⟩
        rintro rfl
        by_cases hh : case.head? = some b
        · cases hc with
          | nil => exact nomatch hh
          | @cons c rest u v hc hrest =>
            obtain rfl := Option.some.inj hh
            exact .again (hc.2 rfl) hr (.of_concat (fun _ _ _ hm => hm.1) hrest)
        · exact .base hr hh hd
    exact (concat_singleton hM).2 rfl

/-! ### Cases that add nothing -/

/-- A symbol with itself alone as a case derives nothing more by it, so productions may differ in
such cases. -/
theorem derives_of_rules {H : Productions α} {xs w : List α} (hleaf : ∀ a, H.leaf a ↔ G.leaf a)
    (hrule : ∀ a case, ¬G.leaf a → case ≠ [a] → G.rule a case → H.rule a case)
    (h : G.Derives xs w) : H.Derives xs w := by
  induction h with
  | nil => exact .nil
  | leaf ha _ ih => exact .leaf ((hleaf _).2 ha) ih
  | @rule a case _ _ _ ha hr _ _ ihcase ih =>
    by_cases hc : case = [a]
    · subst hc
      exact ihcase.append ih
    · exact .rule (fun hl => ha ((hleaf a).1 hl)) (hrule a case ha hc hr) ihcase ih

/-- The same for a symbol that is entered. Leaves are entered at the start only. -/
theorem enters_of_rules {H : Productions α} {start : α} {w : List α}
    (hleaf : ∀ a, H.leaf a ↔ G.leaf a)
    (hrule : ∀ a case, (¬G.leaf a ∨ a = start) → case ≠ [a] → G.rule a case → H.rule a case)
    (h : G.Enters start w) : H.Enters start w := by
  have hderives {xs w : List α} (hd : G.Derives xs w) : H.Derives xs w :=
    derives_of_rules hleaf (fun a case ha => hrule a case (.inl ha)) hd
  induction h with
  | @base case _ hr hh hcase =>
    have hne : case ≠ [start] := fun he => hh (he ▸ rfl)
    exact .base (hrule start case (.inr rfl) hne hr) hh (hderives hcase)
  | @again tail _ _ _ hr htail ih =>
    by_cases ht : tail = []
    · subst ht
      cases htail
      rwa [List.append_nil]
    · have hne : start :: tail ≠ [start] := fun he => ht (List.cons.inj he).2
      exact .again ih (hrule start _ (.inr rfl) hne hr) (hderives htail)

/-- Two readings with the same leaves and, but for such cases, the same rules enter the same. -/
theorem enters_iff_of_rules {H : Productions α} {start : α} {w : List α}
    (hleaf : ∀ a, H.leaf a ↔ G.leaf a)
    (hrule : ∀ a case, (¬G.leaf a ∨ a = start) → case ≠ [a] → (H.rule a case ↔ G.rule a case)) :
    H.Enters start w ↔ G.Enters start w := by
  constructor
  · refine enters_of_rules (fun a => (hleaf a).symm) (fun a case ha hc hr => ?_)
    rw [hleaf a] at ha
    exact (hrule a case ha hc).1 hr
  · exact enters_of_rules hleaf (fun a case ha hc hr => (hrule a case ha hc).2 hr)

/-! ### Unrolling -/

/-- One piece after another, at least one. -/
inductive Pieces (X : List α → Prop) : List α → Prop where
  | one {w : List α} (h : X w) : Pieces X w
  | more {u w : List α} (h : X u) (hw : Pieces X w) : Pieces X (u ++ w)

theorem Pieces.append_one {X : List α → Prop} {u v : List α} (hu : Pieces X u) (hv : X v) :
    Pieces X (u ++ v) := by
  induction hu with
  | one h => exact .more h (.one hv)
  | more h _ ih =>
    rw [List.append_assoc]
    exact .more h ih

/-- What the tails of the cases of `a` that start with `a` derive. -/
def Tails (G H : Productions α) (a : α) (w : List α) : Prop :=
  ∃ tail, G.rule a (a :: tail) ∧ H.Derives tail w

/-- The leading recursion of one old symbol is unrolled: each of its other cases stays, and comes
once more with a new symbol behind it that repeats the tails. -/
structure Unrolls (G H : Productions α) (old : α → Prop) (a : α) (New : List α → α → Prop) :
    Prop where
  closed (x : α) (case : List α) : old x → G.rule x case → ∀ y ∈ case, old y
  leaf (x : α) : old x → (H.leaf x ↔ G.leaf x)
  other (x : α) (case : List α) : old x → x ≠ a → (H.rule x case ↔ G.rule x case)
  self (case : List α) : H.rule a case ↔ (G.rule a case ∧ case.head? ≠ some a) ∨
    ∃ base t, New base t ∧ case = base ++ [t]
  unrolled : old a
  new (base : List α) : G.rule a base → base.head? ≠ some a → ∃ t, New base t
  base (base : List α) (t : α) : New base t → G.rule a base ∧ base.head? ≠ some a
  fresh (base : List α) (t : α) : New base t → ¬old t ∧ ¬H.leaf t
  tail (base : List α) (t : α) (case : List α) : New base t →
    (H.rule t case ↔ ∃ tail, G.rule a (a :: tail) ∧ (case = tail ++ [t] ∨ case = tail))

namespace Unrolls

variable {H : Productions α} {old : α → Prop} {a : α} {New : List α → α → Prop}

theorem old_of_mem_tail (h : Unrolls G H old a New) {tail : List α} (hr : G.rule a (a :: tail)) :
    ∀ x ∈ tail, old x :=
  fun x hx => h.closed a _ h.unrolled hr x (List.mem_cons_of_mem a hx)

/-- A new symbol derives the tails, one or more of them. -/
theorem derives_new_iff (h : Unrolls G H old a New) {base : List α} {t : α} (ht : New base t)
    {w : List α} : H.Derives [t] w ↔ Pieces (Tails G H a) w := by
  have hleaf := (h.fresh base t ht).2
  constructor
  · intro hd
    have hM : Concat (fun x w => H.Derives [x] w ∧ (x = t → Pieces (Tails G H a) w)) [t] w := by
      refine Derives.interpret (fun x hx => ?_) (fun x case w hx hr hc => ?_) hd
      · refine ⟨.leaf hx .nil, ?_⟩
        rintro rfl
        exact absurd hx hleaf
      · refine ⟨.of_rule hx hr (.of_concat (fun _ _ _ hm => hm.1) hc), ?_⟩
        rintro rfl
        obtain ⟨tail, hrule, rfl | rfl⟩ := (h.tail base x case ht).1 hr
        · obtain ⟨u, v, rfl, hu, hv⟩ := hc.split
          exact .more ⟨tail, hrule, .of_concat (fun _ _ _ hm => hm.1) hu⟩
            ((concat_singleton hv).2 rfl)
        · exact .one ⟨case, hrule, .of_concat (fun _ _ _ hm => hm.1) hc⟩
    exact (concat_singleton hM).2 rfl
  · intro hp
    induction hp with
    | one hx =>
      obtain ⟨tail, hrule, hd⟩ := hx
      exact .of_rule hleaf ((h.tail base t tail ht).2 ⟨tail, hrule, .inr rfl⟩) hd
    | more hx _ ih =>
      obtain ⟨tail, hrule, hd⟩ := hx
      exact .of_rule hleaf ((h.tail base t _ ht).2 ⟨tail, hrule, .inl rfl⟩) (hd.append ih)

/-- What the unrolled symbol derives can be followed by one more tail. -/
theorem exists_rule_append (h : Unrolls G H old a New) {case u v : List α} (hr : H.rule a case)
    (hu : H.Derives case u) (hv : Tails G H a v) :
    ∃ case', H.rule a case' ∧ H.Derives case' (u ++ v) := by
  rcases (h.self case).1 hr with ⟨hg, hh⟩ | ⟨base, t, ht, rfl⟩
  · obtain ⟨t, ht⟩ := h.new case hg hh
    exact ⟨case ++ [t], (h.self _).2 (.inr ⟨case, t, ht, rfl⟩),
      hu.append ((h.derives_new_iff ht).2 (.one hv))⟩
  · obtain ⟨x, y, rfl, hx, hy⟩ := hu.split
    refine ⟨base ++ [t], hr, ?_⟩
    rw [List.append_assoc]
    exact hx.append ((h.derives_new_iff ht).2 (((h.derives_new_iff ht).1 hy).append_one hv))

theorem derives_of_derives (h : Unrolls G H old a New) {xs w : List α} (hold : ∀ x ∈ xs, old x)
    (hd : G.Derives xs w) : H.Derives xs w := by
  induction hd with
  | nil => exact .nil
  | leaf ha _ ih =>
    exact .leaf ((h.leaf _ (hold _ List.mem_cons_self)).2 ha)
      (ih (fun x hx => hold x (List.mem_cons_of_mem _ hx)))
  | @rule x case rest u w ha hr _ _ ihcase ih =>
    have hx := hold x List.mem_cons_self
    have hl : ¬H.leaf x := fun hl => ha ((h.leaf x hx).1 hl)
    have hcase := ihcase (h.closed x case hx hr)
    have hrest := ih (fun y hy => hold y (List.mem_cons_of_mem _ hy))
    suffices hone : H.Derives [x] u from hone.append hrest
    by_cases hxa : x = a
    · subst hxa
      by_cases hh : case.head? = some x
      · -- what the leading symbol derives is followed by one more tail
        obtain ⟨tail, rfl⟩ := List.head?_eq_some_iff.1 hh
        rw [← List.singleton_append] at hcase
        obtain ⟨u₁, u₂, rfl, hu₁, hu₂⟩ := hcase.split
        obtain ⟨case', hr', hcase'⟩ := hu₁.opens hl
        obtain ⟨case'', hr'', hcase''⟩ := h.exists_rule_append hr' hcase' ⟨tail, hr, hu₂⟩
        exact .of_rule hl hr'' hcase''
      · exact .of_rule hl ((h.self case).2 (.inl ⟨hr, hh⟩)) hcase
    · exact .of_rule hl ((h.other x case hx hxa).2 hr) hcase

theorem derives_pieces (ha : ¬G.leaf a) {u v : List α} (hu : G.Derives [a] u)
    (hv : Pieces (Tails G G a) v) : G.Derives [a] (u ++ v) := by
  induction hv generalizing u with
  | one hx =>
    obtain ⟨tail, hr, hd⟩ := hx
    exact .of_rule ha hr (hu.append hd)
  | more hx _ ih =>
    obtain ⟨tail, hr, hd⟩ := hx
    rw [← List.append_assoc]
    exact ih (.of_rule ha hr (hu.append hd))

/-- Old symbols derive the same before and after. -/
theorem derives_iff (h : Unrolls G H old a New) {xs w : List α} (hold : ∀ x ∈ xs, old x) :
    H.Derives xs w ↔ G.Derives xs w := by
  refine ⟨fun hd => ?_, h.derives_of_derives hold⟩
  have hM : Concat (fun x w => (old x → G.Derives [x] w) ∧
      ∀ base, New base x → Pieces (Tails G G a) w) xs w := by
    refine Derives.interpret (fun x hx => ?_) (fun x case w hx hr hc => ?_) hd
    · exact ⟨fun ho => .leaf ((h.leaf x ho).1 hx) .nil,
        fun base ht => absurd hx (h.fresh base x ht).2⟩
    · have hold {c : List α} {w : List α} (ho : ∀ y ∈ c, old y)
          (hc : Concat (fun x w => (old x → G.Derives [x] w) ∧
            ∀ base, New base x → Pieces (Tails G G a) w) c w) : G.Derives c w :=
        .of_concat (fun y hy _ hm => hm.1 (ho y hy)) hc
      refine ⟨fun ho => ?_, fun base ht => ?_⟩
      · have hl : ¬G.leaf x := fun hl => hx ((h.leaf x ho).2 hl)
        by_cases hxa : x = a
        · subst hxa
          rcases (h.self case).1 hr with ⟨hg, -⟩ | ⟨base, t, ht, rfl⟩
          · exact .of_rule hl hg (hold (h.closed x case ho hg) hc)
          · obtain ⟨u, v, rfl, hu, hv⟩ := hc.split
            have hg := (h.base base t ht).1
            exact derives_pieces hl (.of_rule hl hg (hold (h.closed x base ho hg) hu))
              ((concat_singleton hv).2 base ht)
        · have hg := (h.other x case ho hxa).1 hr
          exact .of_rule hl hg (hold (h.closed x case ho hg) hc)
      · obtain ⟨tail, hrule, rfl | rfl⟩ := (h.tail base x case ht).1 hr
        · obtain ⟨u, v, rfl, hu, hv⟩ := hc.split
          exact .more ⟨tail, hrule, hold (h.old_of_mem_tail hrule) hu⟩
            ((concat_singleton hv).2 base ht)
        · exact .one ⟨case, hrule, hold (h.old_of_mem_tail hrule) hc⟩
  exact .of_concat (fun x hx _ hm => hm.1 (hold x hx)) hM

theorem tails_iff (h : Unrolls G H old a New) {w : List α} :
    Tails G H a w ↔ Tails G G a w :=
  exists_congr (fun _ => and_congr_right (fun hr => h.derives_iff (h.old_of_mem_tail hr)))

/-- After unrolling no case of the symbol starts with it. -/
theorem not_rule_self (h : Unrolls G H old a New) (tail : List α) : ¬H.rule a (a :: tail) := by
  intro hr
  rcases (h.self _).1 hr with ⟨-, hh⟩ | ⟨base, t, ht, he⟩
  · exact hh rfl
  · cases base with
    | nil =>
      obtain ⟨rfl, -⟩ := List.cons.inj he
      exact (h.fresh _ _ ht).1 h.unrolled
    | cons b base =>
      obtain ⟨rfl, -⟩ := List.cons.inj he
      exact (h.base _ _ ht).2 rfl

theorem enters_self_iff (h : Unrolls G H old a New) {w : List α} :
    H.Enters a w ↔ G.Enters a w := by
  rw [enters_iff_of_not_recursive h.not_rule_self]
  constructor
  · rintro ⟨case, hr, hd⟩
    rcases (h.self case).1 hr with ⟨hg, hh⟩ | ⟨base, t, ht, rfl⟩
    · exact .base hg hh ((h.derives_iff (h.closed a case h.unrolled hg)).1 hd)
    · obtain ⟨u, v, rfl, hu, hv⟩ := hd.split
      obtain ⟨hg, hh⟩ := h.base base t ht
      have he : G.Enters a u := .base hg hh ((h.derives_iff (h.closed a base h.unrolled hg)).1 hu)
      clear hd hu
      have hp := (h.derives_new_iff ht).1 hv
      clear hv
      induction hp generalizing u with
      | one hx =>
        obtain ⟨tail, hrule, hd⟩ := h.tails_iff.1 hx
        exact .again he hrule hd
      | more hx _ ih =>
        obtain ⟨tail, hrule, hd⟩ := h.tails_iff.1 hx
        rw [← List.append_assoc]
        exact ih _ (.again he hrule hd)
  · intro he
    induction he with
    | base hr hh hcase =>
      exact ⟨_, (h.self _).2 (.inl ⟨hr, hh⟩),
        (h.derives_iff (h.closed a _ h.unrolled hr)).2 hcase⟩
    | again _ hr htail ih =>
      obtain ⟨case, hr', hd⟩ := ih
      exact h.exists_rule_append hr' hd (h.tails_iff.2 ⟨_, hr, htail⟩)

/-- Old symbols are entered the same before and after. -/
theorem enters_iff (h : Unrolls G H old a New) {x : α} (hx : old x) {w : List α} :
    H.Enters x w ↔ G.Enters x w := by
  by_cases hxa : x = a
  · subst hxa
    exact h.enters_self_iff
  · constructor
    · intro he
      induction he with
      | base hr hh hcase =>
        have hg := (h.other x _ hx hxa).1 hr
        exact .base hg hh ((h.derives_iff (h.closed x _ hx hg)).1 hcase)
      | again _ hr htail ih =>
        have hg := (h.other x _ hx hxa).1 hr
        have hold := h.closed x _ hx hg
        exact .again ih hg
          ((h.derives_iff (fun y hy => hold y (List.mem_cons_of_mem x hy))).1 htail)
    · intro he
      induction he with
      | base hr hh hcase =>
        exact .base ((h.other x _ hx hxa).2 hr) hh
          ((h.derives_iff (h.closed x _ hx hr)).2 hcase)
      | again _ hr htail ih =>
        have hold := h.closed x _ hx hr
        exact .again ih ((h.other x _ hx hxa).2 hr)
          ((h.derives_iff (fun y hy => hold y (List.mem_cons_of_mem x hy))).2 htail)

end Unrolls

/-! ### Renaming -/

variable {β : Type}

/-- On a domain that the rules do not leave, the symbols can be renamed: leaves and rules
correspond. -/
structure Renames (G : Productions α) (H : Productions β) (dom : α → Prop) (f : α → β) : Prop where
  inj (a b : α) : dom a → dom b → f a = f b → a = b
  closed (a : α) (case : List α) : dom a → G.rule a case → ∀ x ∈ case, dom x
  leaf (a : α) : dom a → (H.leaf (f a) ↔ G.leaf a)
  rule (a : α) (case : List β) : dom a →
    (H.rule (f a) case ↔ ∃ c, case = c.map f ∧ G.rule a c)

namespace Renames

variable {H : Productions β} {dom : α → Prop} {f : α → β}

theorem derives_map (h : Renames G H dom f) {xs w : List α} (hdom : ∀ x ∈ xs, dom x)
    (hd : G.Derives xs w) : H.Derives (xs.map f) (w.map f) := by
  induction hd with
  | nil => exact .nil
  | leaf ha _ ih =>
    exact .leaf ((h.leaf _ (hdom _ List.mem_cons_self)).2 ha)
      (ih (fun x hx => hdom x (List.mem_cons_of_mem _ hx)))
  | @rule a case _ _ _ ha hr _ _ ihcase ih =>
    have hx := hdom a List.mem_cons_self
    rw [List.map_append]
    exact .rule (fun hl => ha ((h.leaf a hx).1 hl)) ((h.rule a _ hx).2 ⟨case, rfl, hr⟩)
      (ihcase (h.closed a case hx hr)) (ih (fun x hx => hdom x (List.mem_cons_of_mem _ hx)))

theorem derives_of_map (h : Renames G H dom f) {xs w : List α} (hdom : ∀ x ∈ xs, dom x)
    (hw : ∀ x ∈ w, dom x) (hd : H.Derives (xs.map f) (w.map f)) : G.Derives xs w := by
  generalize hys : xs.map f = ys at hd
  generalize hv : w.map f = v at hd
  induction hd generalizing xs w with
  | nil =>
    rw [List.map_eq_nil_iff.1 hys, List.map_eq_nil_iff.1 hv]
    exact .nil
  | leaf ha _ ih =>
    obtain ⟨x, xs, rfl, rfl, rfl⟩ := List.map_eq_cons_iff.1 hys
    obtain ⟨y, w, rfl, hxy, rfl⟩ := List.map_eq_cons_iff.1 hv
    have hx := hdom x List.mem_cons_self
    obtain rfl := h.inj y x (hw y List.mem_cons_self) hx hxy
    exact .leaf ((h.leaf y hx).1 ha) (ih (fun x hm => hdom x (List.mem_cons_of_mem _ hm))
      (fun x hm => hw x (List.mem_cons_of_mem _ hm)) rfl rfl)
  | rule ha hr _ _ ihcase ih =>
    obtain ⟨x, xs, rfl, rfl, rfl⟩ := List.map_eq_cons_iff.1 hys
    obtain ⟨u, v, rfl, rfl, rfl⟩ := List.map_eq_append_iff.1 hv
    have hx := hdom x List.mem_cons_self
    obtain ⟨case, rfl, hg⟩ := (h.rule x _ hx).1 hr
    exact .rule (fun hl => ha ((h.leaf x hx).2 hl)) hg
      (ihcase (h.closed x case hx hg) (fun y hm => hw y (List.mem_append_left _ hm)) rfl rfl)
      (ih (fun y hm => hdom y (List.mem_cons_of_mem _ hm))
        (fun y hm => hw y (List.mem_append_right _ hm)) rfl rfl)

theorem derives_iff (h : Renames G H dom f) {xs w : List α} (hdom : ∀ x ∈ xs, dom x)
    (hw : ∀ x ∈ w, dom x) : H.Derives (xs.map f) (w.map f) ↔ G.Derives xs w :=
  ⟨h.derives_of_map hdom hw, h.derives_map hdom⟩

theorem opens_iff (h : Renames G H dom f) {a : α} {w : List α} (ha : dom a)
    (hw : ∀ x ∈ w, dom x) : H.Opens (f a) (w.map f) ↔ G.Opens a w := by
  constructor
  · rintro ⟨_, hr, hd⟩
    obtain ⟨case, rfl, hg⟩ := (h.rule a _ ha).1 hr
    exact ⟨case, hg, (h.derives_iff (h.closed a case ha hg) hw).1 hd⟩
  · rintro ⟨case, hg, hd⟩
    exact ⟨_, (h.rule a _ ha).2 ⟨case, rfl, hg⟩, (h.derives_iff (h.closed a case ha hg) hw).2 hd⟩

theorem enters_iff (h : Renames G H dom f) {a : α} {w : List α} (ha : dom a)
    (hw : ∀ x ∈ w, dom x) : H.Enters (f a) (w.map f) ↔ G.Enters a w := by
  constructor
  · intro he
    generalize hv : w.map f = v at he
    induction he generalizing w with
    | base hr hh hcase =>
      subst hv
      obtain ⟨case, rfl, hg⟩ := (h.rule a _ ha).1 hr
      have hc := h.closed a case ha hg
      exact .base hg (fun hh' => hh ((head?_map_eq_iff h.inj ha hc).2 hh'))
        (h.derives_of_map hc hw hcase)
    | again _ hr htail ih =>
      obtain ⟨u, v, rfl, rfl, rfl⟩ := List.map_eq_append_iff.1 hv
      obtain ⟨case, he, hg⟩ := (h.rule a _ ha).1 hr
      obtain ⟨b, tail, rfl, hb, rfl⟩ := List.map_eq_cons_iff.1 he.symm
      have hc := h.closed a _ ha hg
      obtain rfl := h.inj b a (hc b List.mem_cons_self) ha hb
      exact .again (ih (fun x hx => hw x (List.mem_append_left _ hx)) rfl) hg
        (h.derives_of_map (fun x hx => hc x (List.mem_cons_of_mem _ hx))
          (fun x hx => hw x (List.mem_append_right _ hx)) htail)
  · intro he
    induction he with
    | base hr hh hcase =>
      have hc := h.closed a _ ha hr
      exact .base ((h.rule a _ ha).2 ⟨_, rfl, hr⟩)
        (fun hh' => hh ((head?_map_eq_iff h.inj ha hc).1 hh'))
        (h.derives_map hc hcase)
    | again _ hr htail ih =>
      have hc := h.closed a _ ha hr
      rw [List.map_append]
      exact .again (ih (fun x hx => hw x (List.mem_append_left _ hx)))
        ((h.rule a _ ha).2 ⟨_, rfl, hr⟩)
        (h.derives_map (fun x hx => hc x (List.mem_cons_of_mem _ hx)) htail)

end Renames

end Productions

end Syntagma
