import Mathlib.Data.List.Nodup
import Syntagma.Proofs.Grammar.Productions
import Syntagma.Proofs.Grammar.Stages

/-! Removal of left recursion unrolls productions. Node by node, what the nodes of the draft derive
stays the same, and in the end no case of a medium starts with the medium itself. -/

namespace Syntagma.Draft

variable {d d₁ d' : Draft} {id : NodeId}

/-- The nodes of a draft as symbols. A script has tokens for the token keys. -/
def reading (d : Draft) : Productions NodeId where
  leaf id := d.isTokenKey id
  rule id case := ReadsAs id (d.casesOf id) case

theorem recursiveCases_eq_nil_iff :
    d.recursiveCases id = [] ↔ ∀ case ∈ d.casesOf id, case.head? ≠ some id := by
  simp [recursiveCases, startsWith]

theorem mem_recursiveCases {case : List NodeId} :
    case ∈ d.recursiveCases id ↔ case ∈ d.casesOf id ∧ case.head? = some id := by
  simp [recursiveCases, startsWith]

theorem mem_baseCases {case : List NodeId} :
    case ∈ d.baseCases id ↔ case ∈ d.casesOf id ∧ case.head? ≠ some id :=
  mem_baseOf

theorem exists_recursive (h : d.recursiveCases id ≠ []) :
    ∃ case ∈ d.casesOf id, case.head? = some id := by
  obtain ⟨case, hc⟩ := List.exists_mem_of_ne_nil _ h
  exact ⟨case, mem_recursiveCases.1 hc⟩

theorem rule_iff_of_recursive (h : d.recursiveCases id ≠ []) {case : List NodeId} :
    d.reading.rule id case ↔ case ∈ d.casesOf id :=
  readsAs_iff_of_recursive (exists_recursive h)

theorem mem_tails {tail : List NodeId} :
    tail ∈ (d.recursiveCases id).map (·.drop 1) ↔ id :: tail ∈ d.casesOf id :=
  mem_behind

/-! ### New case lists are read as they are -/

theorem unambiguous_unrolledCases {base : List (List NodeId)} {start : NodeId} (hne : base ≠ [])
    (hlt : ∀ case ∈ base, ∀ x ∈ case, x < start) : Unambiguous (unrolledCases base start) := by
  have hlonger {i : Nat} (hi : i < base.length) :
      base[i] ++ [start + i] ∈ unrolledCases base start := mem_unrolledCases.2 (.inr ⟨i, hi, rfl⟩)
  refine unambiguous_of_not_repeated ?_ (fun case a hr => absurd hr ?_)
  · have hpos := List.length_pos_iff.2 hne
    exact ⟨_, hlonger hpos, by simp⟩
  rcases mem_unrolledCases.1 (List.count_pos_iff.1 (Nat.lt_of_succ_lt hr.1)) with hc | ⟨i, hi, he⟩
  · -- a case that stayed begins the one with its tail
    obtain ⟨i, hi, he⟩ := List.mem_iff_getElem.1 hc
    refine not_repeated_of_begins (hlonger hi) (he ▸ List.prefix_append _ _) (fun heq => ?_)
    have := congrArg List.length (heq.trans he.symm)
    simp at this
  · -- a case with a tail stands there once, as the tails differ
    intro hr
    have hcount := hr.1
    rw [← he, unrolledCases, List.count_append, List.count_eq_zero_of_not_mem (l := base)] at hcount
    · have hnodup : (base.mapIdx (fun i case => case ++ [start + i])).Nodup := by
        refine List.pairwise_iff_getElem.2 (fun j k hj hk hjk heq => ?_)
        simp only [List.getElem_mapIdx] at heq
        have hlast := congrArg List.getLast? heq
        simp only [List.getLast?_append, List.getLast?_singleton, Option.some_or,
          Option.some.injEq] at hlast
        exact Nat.ne_of_lt hjk (Nat.add_left_cancel hlast)
      have := List.nodup_iff_count_le_one.1 hnodup (base[i] ++ [start + i])
      omega
    · intro hm
      exact absurd (hlt _ hm (start + i) (by simp)) (by simp)

theorem unambiguous_tailCases {tails : List (List NodeId)} {t : NodeId} (hne : tails ≠ []) :
    Unambiguous (tailCases tails t) := by
  refine unambiguous_of_not_repeated ?_ (fun case a hr => ?_)
  · obtain ⟨tail, ht⟩ := List.exists_mem_of_ne_nil _ hne
    exact ⟨tail ++ [t], mem_tailCases.2 ⟨tail, ht, .inl rfl⟩, by simp⟩
  obtain ⟨tail, ht, he | he⟩ :=
    mem_tailCases.1 (List.count_pos_iff.1 (Nat.lt_of_succ_lt hr.1))
  · obtain ⟨rfl, -⟩ := List.append_inj' he rfl
    exact mem_tailCases.2 ⟨case, ht, .inr rfl⟩
  · refine absurd hr (not_repeated_of_begins (mem_tailCases.2 ⟨tail, ht, .inl rfl⟩)
      (he ▸ List.prefix_append _ _) (fun heq => ?_))
    have := congrArg List.length (heq.trans he)
    simp at this

/-! ### One medium -/

theorem Tailed.casesOf_tail {tails : List (List NodeId)} {n : Nat} (h : Tailed tails n d d₁)
    {k : Nat} (hk : k < n) :
    d₁.casesOf (d.nodes.size + k) = tailCases tails (d.nodes.size + k) := by
  obtain ⟨name, hs⟩ := h.tail k hk
  rw [casesOf_of_shape? hs]
  rfl

theorem Tailed.isTokenKey_tail {tails : List (List NodeId)} {n : Nat} (h : Tailed tails n d d₁)
    {k : Nat} (hk : k < n) : d₁.isTokenKey (d.nodes.size + k) = false := by
  obtain ⟨name, hs⟩ := h.tail k hk
  rw [isTokenKey, hs]
  rfl

theorem isMedium_of_mem_casesOf {case : List NodeId} (h : case ∈ d.casesOf id) {n : Node}
    (hn : d.shape? id = some n) : n.isMedium := by
  rw [casesOf_of_shape? hn] at h
  obtain ⟨_, _, _, kind⟩ := n
  cases kind with
  | medium data => rfl
  | _ => exact absurd h List.not_mem_nil

theorem closed_reading (hd : d.Sound) {case : List NodeId} (h : d.reading.rule id case) :
    ∀ x ∈ case, x < d.nodes.size := by
  obtain ⟨other, ho, hp⟩ := exists_prefix_of_readsAs h
  exact fun x hx => hd.cases_lt id other ho x (hp.subset hx)

/-- The base case that a tail stands behind, by the number of the tail. -/
def TailOf (d : Draft) (id : NodeId) (base : List NodeId) (t : NodeId) : Prop :=
  ∃ i, ∃ h : i < (d.baseCases id).length, (d.baseCases id)[i] = base ∧ t = d.nodes.size + i

section Removal

variable (hd : d.Sound) (hr : d.recursiveCases id ≠ []) (hb : d.baseCases id ≠ [])
  (ht : Tailed ((d.recursiveCases id).map (·.drop 1)) (d.baseCases id).length d d₁)

include hr ht in
theorem casesOf_unrolled_self :
    (d₁.setCases id (unrolledCases (d.baseCases id) d.nodes.size)).casesOf id =
      unrolledCases (d.baseCases id) d.nodes.size := by
  obtain ⟨case, hc, -⟩ := exists_recursive hr
  obtain ⟨n, hn⟩ := exists_shape? (lt_size_of_mem_casesOf hc)
  exact casesOf_setCases_self (ht.grows id n hn) (isMedium_of_mem_casesOf hc hn) _

include ht in
theorem casesOf_unrolled_of_ne {i : NodeId} (hi : i < d.nodes.size) (hne : i ≠ id) :
    (d₁.setCases id (unrolledCases (d.baseCases id) d.nodes.size)).casesOf i = d.casesOf i := by
  rw [casesOf_setCases_of_ne _ hne, ht.grows.casesOf hi]

include hr ht in
theorem casesOf_unrolled_tail {k : Nat} (hk : k < (d.baseCases id).length) :
    (d₁.setCases id (unrolledCases (d.baseCases id) d.nodes.size)).casesOf (d.nodes.size + k) =
      tailCases ((d.recursiveCases id).map (·.drop 1)) (d.nodes.size + k) := by
  obtain ⟨case, hc, -⟩ := exists_recursive hr
  have hne : d.nodes.size + k ≠ id := by
    have hlt := lt_size_of_mem_casesOf hc
    exact fun he => Nat.not_lt.2 (Nat.le_add_right _ k) (he ▸ hlt)
  rw [casesOf_setCases_of_ne _ hne, ht.casesOf_tail hk]

include hr in
/-- Productions that have the cases of the medium and of its tails as they stand are unrolled,
however the other nodes are read. -/
theorem unrolls_of_cases {G H : Productions NodeId}
    (hclosed : ∀ i case, G.rule i case → ∀ x ∈ case, x < d.nodes.size)
    (hleaf : ∀ i < d.nodes.size, (H.leaf i ↔ G.leaf i))
    (hfresh : ∀ k < (d.baseCases id).length, ¬H.leaf (d.nodes.size + k))
    (hother : ∀ i case, i < d.nodes.size → i ≠ id → (H.rule i case ↔ G.rule i case))
    (hbefore : ∀ case, G.rule id case ↔ case ∈ d.casesOf id)
    (hafter : ∀ case, H.rule id case ↔ case ∈ unrolledCases (d.baseCases id) d.nodes.size)
    (htail : ∀ k < (d.baseCases id).length, ∀ case, H.rule (d.nodes.size + k) case ↔
      case ∈ tailCases ((d.recursiveCases id).map (·.drop 1)) (d.nodes.size + k)) :
    Productions.Unrolls G H (· < d.nodes.size) id (TailOf d id) := by
  obtain ⟨case, hc, -⟩ := exists_recursive hr
  constructor
  case closed => exact fun i case _ h => hclosed i case h
  case leaf => exact hleaf
  case other => exact hother
  case self =>
    intro case
    rw [hafter, hbefore, mem_unrolledCases, mem_baseCases]
    refine or_congr_right ⟨?_, ?_⟩
    · rintro ⟨i, hi, he⟩
      exact ⟨_, _, ⟨i, hi, rfl, rfl⟩, he.symm⟩
    · rintro ⟨_, _, ⟨i, hi, rfl, rfl⟩, he⟩
      exact ⟨i, hi, he.symm⟩
  case unrolled => exact lt_size_of_mem_casesOf hc
  case new =>
    intro base hrule hh
    obtain ⟨i, hi, he⟩ := List.mem_iff_getElem.1 (mem_baseCases.2 ⟨(hbefore base).1 hrule, hh⟩)
    exact ⟨_, i, hi, he, rfl⟩
  case base =>
    rintro _ _ ⟨i, hi, rfl, rfl⟩
    have hm := mem_baseCases.1 (List.getElem_mem hi)
    exact ⟨(hbefore _).2 hm.1, hm.2⟩
  case fresh =>
    rintro _ _ ⟨i, hi, rfl, rfl⟩
    exact ⟨by simp, hfresh i hi⟩
  case tail =>
    rintro _ _ case ⟨i, hi, rfl, rfl⟩
    rw [htail i hi, mem_tailCases]
    simp only [mem_tails, hbefore]

include hd hr hb ht in
theorem unrolls_removed : Productions.Unrolls d.reading
    (d₁.setCases id (unrolledCases (d.baseCases id) d.nodes.size)).reading (· < d.nodes.size) id
    (TailOf d id) := by
  have hkeeps : d.Keeps (d₁.setCases id (unrolledCases (d.baseCases id) d.nodes.size)) :=
    ht.grows.keeps.trans (.setCases d₁ id _)
  have hbase : ∀ case ∈ d.baseCases id, ∀ x ∈ case, x < d.nodes.size :=
    fun case hc => hd.cases_lt id case (mem_baseCases.1 hc).1
  have hne : (d.recursiveCases id).map (·.drop 1) ≠ [] := by simpa using hr
  refine unrolls_of_cases hr (fun i case h => closed_reading hd h) (fun i hi => ?_)
    (fun k hk => ?_) (fun i case hi hne => ?_) (fun case => rule_iff_of_recursive hr)
    (fun case => ?_) (fun k hk case => ?_)
  · simp only [reading, hkeeps.isTokenKey hi]
  · simp only [reading, isTokenKey_setCases, ht.isTokenKey_tail hk]
    exact Bool.false_ne_true
  · simp only [reading, casesOf_unrolled_of_ne ht hi hne]
  · simp only [reading, casesOf_unrolled_self hr ht]
    exact readsAs_iff_of_unambiguous (unambiguous_unrolledCases hb hbase)
  · simp only [reading, casesOf_unrolled_tail hr ht hk]
    exact readsAs_iff_of_unambiguous (unambiguous_tailCases hne)

end Removal

/-- What removal does for one medium, whether it was left-recursive or not. -/
structure Unrolled (id : NodeId) (d d' : Draft) : Prop where
  keeps : d.Keeps d'
  sound : d'.Sound
  key (i : NodeId) : d'.isTokenKey i → i < d.nodes.size
  done : d'.recursiveCases id = []
  other (i : NodeId) : i < d.nodes.size → i ≠ id → d'.casesOf i = d.casesOf i
  new (i : NodeId) : d.nodes.size ≤ i → Unambiguous (d'.casesOf i) ∨ d'.casesOf i = []
  enters (i : NodeId) (w : List NodeId) : i < d.nodes.size →
    (d'.reading.Enters i w ↔ d.reading.Enters i w)

theorem lt_size_of_isTokenKey (h : d.isTokenKey id) : id < d.nodes.size := by
  refine Nat.lt_of_not_le (fun hle => ?_)
  rw [isTokenKey, shape?_eq_none_iff.2 hle] at h
  exact Bool.false_ne_true h

theorem unrolled_of_removeFromMedium (hd : d.Sound) (h : d.removeFromMedium id = .ok d') :
    Unrolled id d d' := by
  rcases removeFromMedium_cases h with ⟨hr, rfl⟩ | ⟨hr, hb, d₁, ht, rfl⟩
  · exact ⟨.refl _, hd, fun _ => lt_size_of_isTokenKey, hr, fun _ _ _ => rfl,
      fun _ hi => .inr (casesOf_eq_nil_of_le hi), fun _ _ _ => .rfl⟩
  have hunrolls := unrolls_removed hd hr hb ht
  have hne : (d.recursiveCases id).map (·.drop 1) ≠ [] := by simpa using hr
  have hsize : (d₁.setCases id (unrolledCases (d.baseCases id) d.nodes.size)).nodes.size =
      d.nodes.size + (d.baseCases id).length := by rw [size_setCases, ht.size]
  refine ⟨ht.grows.keeps.trans (.setCases d₁ id _), hd.removeFromMedium h, fun i hi => ?_, ?_,
    fun i hi hne => casesOf_unrolled_of_ne ht hi hne, fun i hi => ?_,
    fun i w hi => hunrolls.enters_iff hi⟩
  · refine Nat.lt_of_not_le (fun hle => ?_)
    obtain ⟨k, rfl⟩ := Nat.exists_eq_add_of_le hle
    have hk := Nat.lt_of_add_lt_add_left (hsize ▸ lt_size_of_isTokenKey hi)
    rw [isTokenKey_setCases, ht.isTokenKey_tail hk] at hi
    exact Bool.false_ne_true hi
  · refine recursiveCases_eq_nil_iff.2 (fun case hc hh => ?_)
    rw [casesOf_unrolled_self hr ht] at hc
    obtain ⟨tail, rfl⟩ := List.head?_eq_some_iff.1 hh
    have hbase : ∀ case ∈ d.baseCases id, ∀ x ∈ case, x < d.nodes.size :=
      fun case hc => hd.cases_lt id case (mem_baseCases.1 hc).1
    refine hunrolls.not_rule_self tail ?_
    simp only [reading, casesOf_unrolled_self hr ht]
    exact (readsAs_iff_of_unambiguous (unambiguous_unrolledCases hb hbase)).2 hc
  · obtain ⟨k, rfl⟩ := Nat.exists_eq_add_of_le hi
    by_cases hk : k < (d.baseCases id).length
    · rw [casesOf_unrolled_tail hr ht hk]
      exact .inl (unambiguous_tailCases hne)
    · refine .inr (casesOf_eq_nil_of_le ?_)
      rw [hsize]
      exact Nat.add_le_add_left (Nat.le_of_not_lt hk) _

/-! ### All mediums -/

/-- What removal does for all mediums on a list, with the first `n` nodes as the old ones. -/
structure AllUnrolled (n : Nat) (ids : List NodeId) (d d' : Draft) : Prop where
  keeps : d.Keeps d'
  sound : d'.Sound
  key (i : NodeId) : d'.isTokenKey i → i < d.nodes.size
  done : ∀ id ∈ ids, d'.recursiveCases id = []
  still (i : NodeId) : i < d.nodes.size → d.recursiveCases i = [] → d'.recursiveCases i = []
  new (i : NodeId) : n ≤ i → Unambiguous (d'.casesOf i) ∨ d'.casesOf i = []
  enters (i : NodeId) (w : List NodeId) : i < d.nodes.size →
    (d'.reading.Enters i w ↔ d.reading.Enters i w)

theorem allUnrolled_of_removeLeftRecursion {n : Nat} {ids : List NodeId} (hd : d.Sound)
    (hids : ∀ id ∈ ids, id < n) (hn : n ≤ d.nodes.size)
    (hnew : ∀ i, n ≤ i → Unambiguous (d.casesOf i) ∨ d.casesOf i = [])
    (h : d.removeLeftRecursion ids = .ok d') : AllUnrolled n ids d d' := by
  induction ids generalizing d with
  | nil =>
    cases h
    exact ⟨.refl _, hd, fun _ => lt_size_of_isTokenKey, fun _ hm => absurd hm List.not_mem_nil,
      fun _ _ hr => hr, hnew, fun _ _ _ => .rfl⟩
  | cons id ids ih =>
    unfold removeLeftRecursion at h
    rw [List.foldlM_cons] at h
    obtain ⟨d₁, h₁, h⟩ := Fault.bind_eq_ok_iff.1 h
    have hu := unrolled_of_removeFromMedium hd h₁
    have hid := hids id List.mem_cons_self
    have hsize := hu.keeps.size_le
    have hnew₁ (i : NodeId) (hi : n ≤ i) : Unambiguous (d₁.casesOf i) ∨ d₁.casesOf i = [] := by
      rcases Nat.lt_or_ge i d.nodes.size with hlt | hge
      · rw [hu.other i hlt (fun he => Nat.not_lt.2 hi (he ▸ hid))]
        exact hnew i hi
      · exact hu.new i hge
    have hall := ih hu.sound (fun x hx => hids x (List.mem_cons_of_mem id hx))
      (Nat.le_trans hn hsize) hnew₁ h
    have hlt (i : NodeId) (hi : i < d.nodes.size) : i < d₁.nodes.size :=
      Nat.lt_of_lt_of_le hi hsize
    refine ⟨hu.keeps.trans hall.keeps, hall.sound, fun i hi => ?_, fun x hx => ?_,
      fun i hi hr => ?_, hall.new, fun i w hi => ?_⟩
    · have hi₁ := hall.key i hi
      rw [hall.keeps.isTokenKey hi₁] at hi
      exact hu.key i hi
    · rcases List.mem_cons.1 hx with rfl | hx
      · exact hall.still x (hlt x (Nat.lt_of_lt_of_le hid hn)) hu.done
      · exact hall.done x hx
    · refine hall.still i (hlt i hi) ?_
      by_cases hne : i = id
      · rw [hne]
        exact hu.done
      · rw [recursiveCases_eq_nil_iff] at hr ⊢
        rwa [hu.other i hi hne]
    · exact (hall.enters i w (hlt i hi)).trans (hu.enters i w hi)

end Syntagma.Draft
