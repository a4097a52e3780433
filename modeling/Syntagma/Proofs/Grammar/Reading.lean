import Mathlib.Data.List.Nodup
import Syntagma.Grammar.Branching
import Syntagma.Proofs.Distinct
import Syntagma.Proofs.Grammar.Productions

/-! What a tree of merged alternatives spells. Merging keeps every alternative, with two
exceptions. Where one stands several times and no longer one begins with it, its last symbol can
be left out, and where all alternatives are empty nothing is left. -/

namespace Syntagma

section Reading

variable {α : Type} [DecidableEq α]

/-- The case stands there more than once and begins no longer case. -/
def Repeated (cases : List (List α)) (case : List α) : Prop :=
  1 < cases.count case ∧ ∀ other ∈ cases, case <+: other → other = case

/-- What is read for the cases once they are merged. -/
def Reads (cases : List (List α)) (case : List α) : Prop :=
  (∃ other ∈ cases, other ≠ []) ∧ (case ∈ cases ∨ ∃ a, Repeated cases (case ++ [a]))

/-- Merging changes nothing about such cases. -/
def Unambiguous (cases : List (List α)) : Prop := ∀ case, Reads cases case ↔ case ∈ cases

theorem unambiguous_of_not_repeated {cases : List (List α)} (h : ∃ other ∈ cases, other ≠ [])
    (hr : ∀ case a, Repeated cases (case ++ [a]) → case ∈ cases) : Unambiguous cases := by
  intro case
  refine ⟨?_, fun hc => ⟨h, .inl hc⟩⟩
  rintro ⟨-, hc | ⟨a, ha⟩⟩
  · exact hc
  · exact hr case a ha

theorem not_repeated_of_begins {cases : List (List α)} {case other : List α} (ho : other ∈ cases)
    (hp : case <+: other) (hne : other ≠ case) : ¬Repeated cases case :=
  fun h => hne (h.2 other ho hp)

/-- Distinct cases are not ambiguous unless all there is is an empty one. -/
theorem unambiguous_of_nodup {cases : List (List α)} (hc : cases.Nodup)
    (h : ∃ other ∈ cases, other ≠ []) : Unambiguous cases := by
  refine unambiguous_of_not_repeated h (fun case a hr => ?_)
  have hle := List.nodup_iff_count_le_one.1 hc (case ++ [a])
  exact absurd hr.1 (Nat.not_lt.2 hle)

/-- What is read for a symbol with these cases. They are taken as they are if one of them starts
with the symbol itself, and otherwise merged. -/
def ReadsAs (self : α) (cases : List (List α)) (case : List α) : Prop :=
  ((∃ other ∈ cases, other.head? = some self) ∧ case ∈ cases) ∨
    ((∀ other ∈ cases, other.head? ≠ some self) ∧ Reads cases case)

variable {self : α} {cases : List (List α)} {case : List α}

theorem readsAs_iff_of_recursive (h : ∃ other ∈ cases, other.head? = some self) :
    ReadsAs self cases case ↔ case ∈ cases := by
  refine ⟨?_, fun hc => .inl ⟨h, hc⟩⟩
  rintro (⟨-, hc⟩ | ⟨hno, -⟩)
  · exact hc
  · obtain ⟨other, ho, hh⟩ := h
    exact absurd hh (hno other ho)

theorem readsAs_iff_of_not_recursive (h : ∀ other ∈ cases, other.head? ≠ some self) :
    ReadsAs self cases case ↔ Reads cases case := by
  refine ⟨?_, fun hc => .inr ⟨h, hc⟩⟩
  rintro (⟨⟨other, ho, hh⟩, -⟩ | ⟨-, hc⟩)
  · exact absurd hh (h other ho)
  · exact hc

theorem readsAs_iff_of_unambiguous (h : Unambiguous cases) :
    ReadsAs self cases case ↔ case ∈ cases := by
  by_cases hr : ∃ other ∈ cases, other.head? = some self
  · exact readsAs_iff_of_recursive hr
  · rw [readsAs_iff_of_not_recursive (fun other ho hh => hr ⟨other, ho, hh⟩)]
    exact h case

theorem not_reads_nil (case : List α) : ¬Reads [] case := by
  rintro ⟨⟨other, ho, -⟩, -⟩
  exact absurd ho List.not_mem_nil

/-- Whatever is read begins one of the cases. -/
theorem exists_prefix_of_reads (h : Reads cases case) : ∃ other ∈ cases, case <+: other := by
  rcases h with ⟨-, hc | ⟨a, ha, -⟩⟩
  · exact ⟨case, hc, List.prefix_refl case⟩
  · exact ⟨_, List.count_pos_iff.1 (Nat.lt_of_succ_lt ha), List.prefix_append case [a]⟩

theorem exists_prefix_of_readsAs (h : ReadsAs self cases case) :
    ∃ other ∈ cases, case <+: other := by
  rcases h with ⟨-, hc⟩ | ⟨-, h⟩
  · exact ⟨case, hc, List.prefix_refl case⟩
  · exact exists_prefix_of_reads h

/-! ### Cases that start with the symbol, and the others -/

/-- The cases that do not start with the symbol. -/
def baseOf (self : α) (cases : List (List α)) : List (List α) :=
  cases.filter (fun case => !(case.head? == some self))

/-- What stands behind the symbol in the cases that start with it. -/
def behind (self : α) (cases : List (List α)) : List (List α) :=
  (cases.filter (fun case => case.head? == some self)).map (·.drop 1)

theorem mem_baseOf : case ∈ baseOf self cases ↔ case ∈ cases ∧ case.head? ≠ some self := by
  simp [baseOf]

theorem mem_behind {tail : List α} : tail ∈ behind self cases ↔ self :: tail ∈ cases := by
  rw [behind, List.mem_map]
  constructor
  · rintro ⟨case, hc, rfl⟩
    obtain ⟨hc, hh⟩ := List.mem_filter.1 hc
    obtain ⟨tail, rfl⟩ := List.head?_eq_some_iff.1 (beq_iff_eq.1 hh)
    exact hc
  · intro h
    exact ⟨self :: tail, List.mem_filter.2 ⟨h, by simp⟩, rfl⟩

end Reading

/-! ### Renaming -/

section Renaming

variable {α β : Type} {dom : α → Prop} {f : α → β}

theorem eq_of_map_eq (hinj : ∀ x y, dom x → dom y → f x = f y → x = y) {xs ys : List α}
    (hx : ∀ x ∈ xs, dom x) (hy : ∀ y ∈ ys, dom y) (h : xs.map f = ys.map f) : xs = ys := by
  induction xs generalizing ys with
  | nil => exact (List.map_eq_nil_iff.1 h.symm).symm
  | cons x xs ih =>
    obtain ⟨y, ys, rfl, hxy, h⟩ := List.map_eq_cons_iff.1 h.symm
    have he := hinj y x (hy y List.mem_cons_self) (hx x List.mem_cons_self) hxy
    have hrest := ih (fun z hz => hx z (List.mem_cons_of_mem x hz))
      (fun z hz => hy z (List.mem_cons_of_mem y hz)) h.symm
    rw [he, hrest]

variable [DecidableEq α] [DecidableEq β] {cases : List (List α)} {case : List α}

theorem count_map_map (hinj : ∀ x y, dom x → dom y → f x = f y → x = y)
    (hc : ∀ other ∈ cases, ∀ x ∈ other, dom x) (hd : ∀ x ∈ case, dom x) :
    (cases.map (·.map f)).count (case.map f) = cases.count case := by
  induction cases with
  | nil => rfl
  | cons other cases ih =>
    have hiff : other.map f = case.map f ↔ other = case :=
      ⟨eq_of_map_eq hinj (hc other List.mem_cons_self) hd, fun h => h ▸ rfl⟩
    rw [List.map_cons, List.count_cons, List.count_cons,
      ih (fun x hx => hc x (List.mem_cons_of_mem other hx))]
    simp [hiff]

theorem repeated_map_iff (hinj : ∀ x y, dom x → dom y → f x = f y → x = y)
    (hc : ∀ other ∈ cases, ∀ x ∈ other, dom x) (hd : ∀ x ∈ case, dom x) :
    Repeated (cases.map (·.map f)) (case.map f) ↔ Repeated cases case := by
  unfold Repeated
  rw [count_map_map hinj hc hd]
  refine and_congr_right (fun _ => ⟨fun h other ho hp => ?_, fun h other ho hp => ?_⟩)
  · exact eq_of_map_eq hinj (hc other ho) hd
      (h (other.map f) (List.mem_map_of_mem ho) (hp.map f))
  · obtain ⟨o, ho', rfl⟩ := List.mem_map.1 ho
    obtain ⟨t, ht⟩ := hp
    obtain ⟨x, y, rfl, hx, -⟩ := List.map_eq_append_iff.1 ht.symm
    have hx' := eq_of_map_eq hinj (fun z hz => hc _ ho' z (List.mem_append_left y hz)) hd hx
    rw [h _ ho' (hx' ▸ List.prefix_append x y)]

theorem reads_map_iff (hinj : ∀ x y, dom x → dom y → f x = f y → x = y)
    (hc : ∀ other ∈ cases, ∀ x ∈ other, dom x) (read : List β) :
    Reads (cases.map (·.map f)) read ↔ ∃ case, read = case.map f ∧ Reads cases case := by
  have hne : (∃ other ∈ cases.map (·.map f), other ≠ []) ↔ ∃ other ∈ cases, other ≠ [] := by
    constructor
    · rintro ⟨_, ho, hne⟩
      obtain ⟨other, ho', rfl⟩ := List.mem_map.1 ho
      exact ⟨other, ho', fun he => hne (List.map_eq_nil_iff.2 he)⟩
    · rintro ⟨other, ho, hne⟩
      exact ⟨_, List.mem_map_of_mem ho, fun he => hne (List.map_eq_nil_iff.1 he)⟩
  unfold Reads
  rw [hne]
  constructor
  · rintro ⟨h, hread | ⟨b, hb⟩⟩
    · obtain ⟨case, hcase, rfl⟩ := List.mem_map.1 hread
      exact ⟨case, rfl, h, .inl hcase⟩
    · obtain ⟨other, ho, he⟩ := List.mem_map.1 (List.count_pos_iff.1 (Nat.lt_of_succ_lt hb.1))
      obtain ⟨case, last, rfl, rfl, hlast⟩ := List.map_eq_append_iff.1 he
      obtain ⟨a, rest, rfl, rfl, hrest⟩ := List.map_eq_cons_iff.1 hlast
      obtain rfl := List.map_eq_nil_iff.1 hrest
      exact ⟨case, rfl, h, .inr ⟨a, (repeated_map_iff hinj hc (hc _ ho)).1 (he ▸ hb)⟩⟩
  · rintro ⟨case, rfl, h, hcase | ⟨a, ha⟩⟩
    · exact ⟨h, .inl (List.mem_map_of_mem hcase)⟩
    · have ho := List.count_pos_iff.1 (Nat.lt_of_succ_lt ha.1)
      refine ⟨h, .inr ⟨f a, ?_⟩⟩
      have hr := (repeated_map_iff hinj hc (hc _ ho)).2 ha
      rwa [List.map_append] at hr

theorem readsAs_map_iff (hinj : ∀ x y, dom x → dom y → f x = f y → x = y) {self : α}
    (hself : dom self) (hc : ∀ other ∈ cases, ∀ x ∈ other, dom x) (read : List β) :
    ReadsAs (f self) (cases.map (·.map f)) read ↔ ∃ case, read = case.map f ∧
      ReadsAs self cases case := by
  have hhead {other : List α} (ho : other ∈ cases) :
      (other.map f).head? = some (f self) ↔ other.head? = some self :=
    head?_map_eq_iff hinj hself (hc other ho)
  by_cases h : ∃ other ∈ cases, other.head? = some self
  · have h' : ∃ other ∈ cases.map (·.map f), other.head? = some (f self) := by
      obtain ⟨other, ho, hh⟩ := h
      exact ⟨_, List.mem_map_of_mem ho, (hhead ho).2 hh⟩
    simp only [readsAs_iff_of_recursive h, readsAs_iff_of_recursive h', List.mem_map]
    exact exists_congr (fun case => by rw [and_comm, eq_comm])
  · have hno : ∀ other ∈ cases, other.head? ≠ some self := fun other ho hh => h ⟨other, ho, hh⟩
    have hno' : ∀ other ∈ cases.map (·.map f), other.head? ≠ some (f self) := by
      intro other ho hh
      obtain ⟨o, ho', rfl⟩ := List.mem_map.1 ho
      exact hno o ho' ((hhead ho').1 hh)
    simp only [readsAs_iff_of_not_recursive hno, readsAs_iff_of_not_recursive hno']
    exact reads_map_iff hinj hc read

end Renaming

namespace Branching

/-- The sequences that a tree spells from its root. -/
def Spells : Branching → List NodeId → Prop
  | b, [] => b.ends
  | b, head :: rest => ∃ next, (head, next) ∈ b.branches ∧
      match next with
      | none => rest = []
      | some inner => Spells inner rest

/-- Each first symbol stands once in the tree, here and in every inner tree, and is below `n`. -/
inductive Below (n : Nat) : Branching → Prop where
  | mk {branches : List (NodeId × Option Branching)} {ends : Bool}
    (nodup : (branches.map (·.1)).Nodup) (heads : ∀ e ∈ branches, e.1 < n)
    (inner : ∀ h b, (h, some b) ∈ branches → Below n b) : Below n (.mk branches ends)

/-- The inner tree that stands in a tree behind the symbols of a path. -/
inductive Behind : Branching → List NodeId → Branching → Prop where
  | head {b inner : Branching} {head : NodeId} (h : (head, some inner) ∈ b.branches) :
    Behind b [head] inner
  | step {b next inner : Branching} {head : NodeId} {path : List NodeId}
    (h : (head, some next) ∈ b.branches) (hb : Behind next path inner) :
    Behind b (head :: path) inner

theorem Below.of_behind {n : Nat} {b inner : Branching} {path : List NodeId} (h : Below n b)
    (hb : b.Behind path inner) : Below n inner := by
  induction hb with
  | head hmem =>
    obtain ⟨-, -, hinner⟩ := h
    exact hinner _ _ hmem
  | step hmem _ ih =>
    obtain ⟨-, -, hinner⟩ := h
    exact ih (hinner _ _ hmem)

/-- More branches have the same trees behind them. -/
theorem Behind.of_subset {b b' inner : Branching} {path : List NodeId} (h : b.Behind path inner)
    (hs : ∀ e ∈ b.branches, e ∈ b'.branches) : b'.Behind path inner := by
  cases h with
  | head hmem => exact .head (hs _ hmem)
  | step hmem hb => exact .step (hs _ hmem) hb

variable {cases : List (List NodeId)} {head : NodeId} {rest : List NodeId}

theorem mem_heads : head ∈ heads cases ↔ ∃ rest, head :: rest ∈ cases := by
  rw [heads, List.mem_eraseDups, List.mem_filterMap]
  constructor
  · rintro ⟨case, hc, hh⟩
    cases case with
    | nil => exact nomatch hh
    | cons a rest =>
      cases hh
      exact ⟨rest, hc⟩
  · rintro ⟨rest, hc⟩
    exact ⟨head :: rest, hc, rfl⟩

theorem nodup_heads (cases : List (List NodeId)) : (heads cases).Nodup :=
  Distinct.nodup_eraseDups _

theorem count_tailsOf (head : NodeId) (rest : List NodeId) (cases : List (List NodeId)) :
    (tailsOf head cases).count rest = cases.count (head :: rest) := by
  induction cases with
  | nil => rfl
  | cons case cases ih =>
    cases case with
    | nil => rw [tailsOf, ih, List.count_cons_of_ne (by simp)]
    | cons h t =>
      rw [tailsOf]
      by_cases hh : h = head
      · subst hh
        rw [if_pos rfl, List.count_cons, List.count_cons, ih]
        simp
      · rw [if_neg hh, ih, List.count_cons_of_ne (by simp [hh])]

theorem mem_tailsOf : rest ∈ tailsOf head cases ↔ head :: rest ∈ cases := by
  rw [← List.count_pos_iff, ← List.count_pos_iff, count_tailsOf]

theorem repeated_cons : Repeated cases (head :: rest) ↔ Repeated (tailsOf head cases) rest := by
  unfold Repeated
  rw [count_tailsOf]
  refine and_congr_right (fun _ => ⟨fun h other ho hp => ?_, fun h other ho hp => ?_⟩)
  · have he := h (head :: other) (mem_tailsOf.1 ho) (List.cons_prefix_cons.2 ⟨rfl, hp⟩)
    exact (List.cons.inj he).2
  · obtain ⟨t, rfl⟩ := hp
    have he := h (rest ++ t) (mem_tailsOf.2 ho) (List.prefix_append rest t)
    rw [List.cons_append, he]

/-- The mark for an end after one symbol is set where this symbol alone is a repeated case. -/
theorem endsTwiceAfter_iff : endsTwiceAfter cases head ↔ Repeated cases [head] := by
  rw [repeated_cons]
  unfold endsTwiceAfter Repeated
  simp only [Bool.and_eq_true, decide_eq_true_eq, List.all_eq_true, List.isEmpty_iff,
    List.nil_prefix, forall_const]
  constructor
  · rintro ⟨hlen, hall⟩
    refine ⟨?_, hall⟩
    rwa [List.count_eq_length.2 (fun t ht => (hall t ht).symm)]
  · rintro ⟨hcount, hall⟩
    exact ⟨Nat.lt_of_lt_of_le hcount List.count_le_length, hall⟩

theorem repeated_head (h : Repeated cases (head :: rest)) : head ∈ heads cases :=
  mem_heads.2 ⟨rest, List.count_pos_iff.1 (Nat.lt_of_succ_lt h.1)⟩

theorem length_tailsOf_le {depth : Nat} (h : ∀ case ∈ cases, case.length ≤ depth + 1) :
    ∀ case ∈ tailsOf head cases, case.length ≤ depth := by
  intro case hc
  have hl := h _ (mem_tailsOf.1 hc)
  rw [List.length_cons] at hl
  omega

theorem tailsOf_ne_nil (h : head ∈ heads cases) : tailsOf head cases ≠ [] := by
  obtain ⟨rest, hr⟩ := mem_heads.1 h
  exact List.ne_nil_of_mem (mem_tailsOf.2 hr)

theorem ofCasesWithin_eq_none_iff {depth : Nat} (h : ∀ case ∈ cases, case.length ≤ depth) :
    ofCasesWithin depth cases = none ↔ cases ≠ [] ∧ ∀ case ∈ cases, case = [] := by
  cases depth with
  | zero =>
    have hall : ∀ case ∈ cases, case = [] := fun case hc =>
      List.eq_nil_of_length_eq_zero (Nat.le_zero.1 (h case hc))
    cases cases with
    | nil => simp [ofCasesWithin]
    | cons case cases => simpa [ofCasesWithin] using hall
  | succ depth =>
    unfold ofCasesWithin
    cases cases <;> simp

/-- Behind a head either nothing follows, if there are only empty cases left, or an inner tree. -/
theorem spells_behind {depth : Nat} {tails : List (List NodeId)} {rest : List NodeId}
    (hlen : ∀ case ∈ tails, case.length ≤ depth) (hne : tails ≠ [])
    (hinner : ∀ inner, ofCasesWithin depth tails = some inner →
      (inner.Spells rest ↔ rest ∈ tails ∨ ∃ a, Repeated tails (rest ++ [a]))) :
    (match ofCasesWithin depth tails with
      | none => rest = []
      | some inner => inner.Spells rest) ↔ rest ∈ tails ∨ ∃ a, Repeated tails (rest ++ [a]) := by
  cases hw : ofCasesWithin depth tails with
  | none =>
    have hall := ((ofCasesWithin_eq_none_iff hlen).1 hw).2
    obtain ⟨t, ht⟩ := List.exists_mem_of_ne_nil _ hne
    have hnil : [] ∈ tails := hall t ht ▸ ht
    have hrep : ¬∃ a, Repeated tails (rest ++ [a]) := by
      rintro ⟨a, ha, -⟩
      have := hall _ (List.count_pos_iff.1 (Nat.lt_of_succ_lt ha))
      simp at this
    simp only [hrep, or_false]
    exact ⟨fun he => he ▸ hnil, hall rest⟩
  | some inner => exact hinner inner hw

/-- A merged tree spells the cases, and the repeated ones without their last symbol too. -/
theorem spells_ofCasesWithin {depth : Nat} (h : ∀ case ∈ cases, case.length ≤ depth)
    {b : Branching} (hb : ofCasesWithin depth cases = some b) (case : List NodeId) :
    b.Spells case ↔ case ∈ cases ∨ ∃ a, Repeated cases (case ++ [a]) := by
  induction depth generalizing cases b case with
  | zero =>
    unfold ofCasesWithin at hb
    split at hb
    next he =>
      cases hb
      rw [List.isEmpty_iff.1 he]
      cases case <;> simp [Spells, branches, ends, Repeated]
    · cases hb
  | succ depth ih =>
    unfold ofCasesWithin at hb
    split at hb
    · cases hb
    cases hb
    cases case with
    | nil =>
      simp only [Spells, ends, Bool.or_eq_true, List.any_eq_true, List.isEmpty_iff,
        endsTwiceAfter_iff, List.nil_append, exists_eq_right]
      refine or_congr_right ⟨fun ⟨a, _, ha⟩ => ⟨a, ha⟩, fun ⟨a, ha⟩ => ⟨a, repeated_head ha, ha⟩⟩
    | cons head rest =>
      have hlen : ∀ case ∈ tailsOf head cases, case.length ≤ depth := length_tailsOf_le h
      have hbehind (hh : head ∈ heads cases) :=
        spells_behind hlen (tailsOf_ne_nil hh) (fun inner hw => ih hlen hw rest)
      simp only [Spells, branches, List.mem_map, Prod.mk.injEq, List.cons_append, repeated_cons,
        ← mem_tailsOf]
      constructor
      · rintro ⟨next, ⟨a, ha, rfl, rfl⟩, hs⟩
        exact (hbehind ha).1 hs
      · intro hr
        have hh : head ∈ heads cases := by
          rcases hr with hr | ⟨a, ha⟩
          · exact mem_heads.2 ⟨rest, mem_tailsOf.1 hr⟩
          · exact repeated_head (repeated_cons.2 ha)
        exact ⟨_, ⟨head, hh, rfl, rfl⟩, (hbehind hh).2 hr⟩

theorem below_ofCasesWithin {n depth : Nat} (hc : ∀ case ∈ cases, ∀ x ∈ case, x < n)
    {b : Branching} (hb : ofCasesWithin depth cases = some b) : Below n b := by
  induction depth generalizing cases b with
  | zero =>
    unfold ofCasesWithin at hb
    split at hb
    · cases hb
      exact .mk .nil (fun _ h => absurd h List.not_mem_nil) (fun _ _ h => absurd h List.not_mem_nil)
    · exact nomatch hb
  | succ depth ih =>
    unfold ofCasesWithin at hb
    split at hb
    · exact nomatch hb
    cases hb
    refine .mk ?_ (fun e he => ?_) (fun head inner he => ?_)
    · rw [List.map_map]
      exact (List.map_id _).symm ▸ nodup_heads cases
    · obtain ⟨head, hh, rfl⟩ := List.mem_map.1 he
      obtain ⟨rest, hr⟩ := mem_heads.1 hh
      exact hc _ hr _ List.mem_cons_self
    · obtain ⟨_, -, heq⟩ := List.mem_map.1 he
      obtain ⟨rfl, hw⟩ := Prod.mk.inj heq
      refine ih (fun case hcase x hx => ?_) hw
      exact hc _ (mem_tailsOf.1 hcase) x (List.mem_cons_of_mem _ hx)

theorem length_le_longest (case : List NodeId) (h : case ∈ cases) :
    case.length ≤ longest cases := by
  have hmax (l : List (List NodeId)) (n : Nat) : n ≤ l.foldl (fun n c => max n c.length) n := by
    induction l generalizing n with
    | nil => exact Nat.le_refl n
    | cons c l ih => exact Nat.le_trans (Nat.le_max_left _ _) (ih _)
  unfold longest
  generalize 0 = n
  induction cases generalizing n with
  | nil => exact absurd h List.not_mem_nil
  | cons c l ih =>
    rcases List.mem_cons.1 h with rfl | h
    · exact Nat.le_trans (Nat.le_max_right _ _) (hmax _ _)
    · exact ih h _

/-- What the tree of the cases of a medium spells, if there is one. -/
theorem spells_ofCases {b : Branching} (hb : ofCases cases = some b) (case : List NodeId) :
    b.Spells case ↔ Reads cases case := by
  rw [spells_ofCasesWithin length_le_longest hb]
  refine ⟨fun h => ⟨?_, h⟩, fun h => h.2⟩
  have hne : ¬(cases ≠ [] ∧ ∀ case ∈ cases, case = []) := by
    rw [← ofCasesWithin_eq_none_iff length_le_longest]
    exact fun hn => nomatch hn.symm.trans hb
  have hcases : cases ≠ [] := by
    rintro rfl
    simp [Repeated] at h
  simpa [hcases] using hne

theorem not_reads_of_ofCases_eq_none (h : ofCases cases = none) (case : List NodeId) :
    ¬Reads cases case := by
  rintro ⟨⟨other, ho, hne⟩, -⟩
  exact hne (((ofCasesWithin_eq_none_iff length_le_longest).1 h).2 other ho)

theorem below_ofCases {n : Nat} (hc : ∀ case ∈ cases, ∀ x ∈ case, x < n) {b : Branching}
    (hb : ofCases cases = some b) : Below n b :=
  below_ofCasesWithin hc hb

end Branching

end Syntagma
