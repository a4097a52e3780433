import Syntagma.Proofs.Automaton.Recurrence

/-! The tour that a walk makes through the places of a token. It depends on the grammar alone: the
heads of a trie are taken in their order, a medium is entered at the first place where it stands,
and at other places it is met again. -/

namespace Syntagma.TokenWalk

variable {g : Grammar} {token : NodeId} {accept : AcceptToken}

/-! ### Tours -/

/-- The mediums that a tour has come to, and the places where it met one of them again. -/
structure Tour where
  visited : List NodeId
  again : List (Place × NodeId)

namespace Tour

def enter (t : Tour) (medium : NodeId) : Tour := { t with visited := medium :: t.visited }

def meet (t : Tour) (p : Place) (medium : NodeId) : Tour :=
  { t with again := (p, medium) :: t.again }

end Tour

/-- What is left of a tour: a task without its state. -/
inductive Leg where
  | level (p : Place) (trie : Trie)
  | heads (p : Place) (cases : List (NodeId × Option NodeId))
  | behind (p : Place) (continuation : Option NodeId)

def Task.leg : Task → Leg
  | .level p trie _ => .level p trie
  | .heads p cases _ _ => .heads p cases
  | .behind p continuation _ => .behind p continuation

/-- The tour through what is left. -/
inductive Tours (g : Grammar) : Leg → Tour → Tour → Prop where
  | level {p : Place} {trie : Trie} {t t' : Tour}
    (h : Tours g (.heads p (ordered g trie.cases)) t t') : Tours g (.level p trie) t t'
  | done {p : Place} {t : Tour} : Tours g (.heads p []) t t
  | again {p : Place} {head : NodeId} {continuation : Option NodeId}
    {rest : List (NodeId × Option NodeId)} {t t' : Tour} (hm : isMedium g head)
    (hv : head ∈ t.visited) (h : Tours g (.heads p rest) (t.meet p head) t') :
    Tours g (.heads p ((head, continuation) :: rest)) t t'
  | enter {p : Place} {head : NodeId} {continuation : Option NodeId}
    {rest : List (NodeId × Option NodeId)} {t t₁ t' : Tour} (hm : isMedium g head)
    (hv : head ∉ t.visited)
    (hl : Tours g (.level ⟨head, []⟩ ((g.trie? head).getD .empty)) (t.enter head) t₁)
    (h : Tours g (.heads p rest) t₁ t') : Tours g (.heads p ((head, continuation) :: rest)) t t'
  | pass {p : Place} {head : NodeId} {continuation : Option NodeId}
    {rest : List (NodeId × Option NodeId)} {t t₁ t' : Tour} (hm : ¬isMedium g head)
    (hb : Tours g (.behind (p.past head) continuation) t t₁) (h : Tours g (.heads p rest) t₁ t') :
    Tours g (.heads p ((head, continuation) :: rest)) t t'
  | ends {p : Place} {continuation : Option NodeId} {t : Tour}
    (hc : continuation.bind g.trie? = none) : Tours g (.behind p continuation) t t
  | goes {p : Place} {continuation : Option NodeId} {trie : Trie} {t t' : Tour}
    (hc : continuation.bind g.trie? = some trie) (h : Tours g (.level p trie) t t') :
    Tours g (.behind p continuation) t t'

/-- The tour through a token starts at its cases, the token itself visited. -/
def tourOf (g : Grammar) (token : NodeId) : Leg := .level ⟨token, []⟩ ((g.trie? token).getD .empty)

/-- Where the walk over the token comes to the place, the medium was visited before. -/
def MetAgain (g : Grammar) (token : NodeId) (p : Place) (medium : NodeId) : Prop :=
  ∃ t, Tours g (tourOf g token) ⟨[token], []⟩ t ∧ (p, medium) ∈ t.again

namespace Tours

variable {leg : Leg} {t t' t'' : Tour}

/-- There is one tour. -/
theorem unique (h : Tours g leg t t') (h' : Tours g leg t t'') : t' = t'' := by
  induction h generalizing t'' with
  | level _ ih =>
    cases h' with
    | level h' => exact ih h'
  | done =>
    cases h'
    rfl
  | again hm hv _ ih =>
    cases h' with
    | again _ _ h' => exact ih h'
    | enter _ hv' => exact absurd hv hv'
    | pass hm' => exact absurd hm hm'
  | enter hm hv _ _ ihl ih =>
    cases h' with
    | again _ hv' => exact absurd hv' hv
    | enter _ _ hl' h' =>
      obtain rfl := ihl hl'
      exact ih h'
    | pass hm' => exact absurd hm hm'
  | pass hm _ _ ihb ih =>
    cases h' with
    | again hm' => exact absurd hm' hm
    | enter hm' => exact absurd hm' hm
    | pass _ hb' h' =>
      obtain rfl := ihb hb'
      exact ih h'
  | ends hc =>
    cases h' with
    | ends => rfl
    | goes hc' => cases hc.symm.trans hc'
  | goes hc _ ih =>
    cases h' with
    | ends hc' => cases hc'.symm.trans hc
    | goes hc' h' =>
      obtain rfl := Option.some.inj (hc.symm.trans hc')
      exact ih h'

/-- What was visited stays visited. -/
theorem visited_subset (h : Tours g leg t t') : t.visited ⊆ t'.visited := by
  induction h with
  | level _ ih => exact ih
  | done => exact fun _ hv => hv
  | again _ _ _ ih => exact ih
  | enter _ _ _ _ ihl ih => exact fun _ hv => ih (ihl (List.mem_cons_of_mem _ hv))
  | pass _ _ _ ihb ih => exact fun _ hv => ih (ihb hv)
  | ends => exact fun _ hv => hv
  | goes _ _ ih => exact ih

/-- What was met again stays so. -/
theorem again_subset (h : Tours g leg t t') : t.again ⊆ t'.again := by
  induction h with
  | level _ ih => exact ih
  | done => exact fun _ he => he
  | again _ _ _ ih => exact fun _ he => ih (List.mem_cons_of_mem _ he)
  | enter _ _ _ _ ihl ih => exact fun _ he => ih (ihl he)
  | pass _ _ _ ihb ih => exact fun _ he => ih (ihb he)
  | ends => exact fun _ he => he
  | goes _ _ ih => exact ih

section Heads

variable {p : Place} {head : NodeId} {continuation : Option NodeId}
  {rest : List (NodeId × Option NodeId)}

theorem of_again (h : Tours g (.heads p ((head, continuation) :: rest)) t t') (hm : isMedium g head)
    (hv : head ∈ t.visited) : Tours g (.heads p rest) (t.meet p head) t' := by
  cases h with
  | again _ _ h => exact h
  | enter _ hv' => exact absurd hv hv'
  | pass hm' => exact absurd hm hm'

theorem of_enter (h : Tours g (.heads p ((head, continuation) :: rest)) t t') (hm : isMedium g head)
    (hv : head ∉ t.visited) :
    ∃ t₁, Tours g (.level ⟨head, []⟩ ((g.trie? head).getD .empty)) (t.enter head) t₁ ∧
      Tours g (.heads p rest) t₁ t' := by
  cases h with
  | again _ hv' => exact absurd hv' hv
  | enter _ _ hl h => exact ⟨_, hl, h⟩
  | pass hm' => exact absurd hm hm'

theorem of_pass (h : Tours g (.heads p ((head, continuation) :: rest)) t t')
    (hm : ¬isMedium g head) :
    ∃ t₁, Tours g (.behind (p.past head) continuation) t t₁ ∧ Tours g (.heads p rest) t₁ t' := by
  cases h with
  | again hm' => exact absurd hm' hm
  | enter hm' => exact absurd hm' hm
  | pass _ hb h => exact ⟨_, hb, h⟩

end Heads

end Tours

/-- The tour through what is left, as far as this depth goes. -/
def tour? (g : Grammar) : Nat → Leg → Tour → Option Tour
  | 0, _, _ => none
  | depth + 1, .level p trie, t => tour? g depth (.heads p (ordered g trie.cases)) t
  | _ + 1, .heads _ [], t => some t
  | depth + 1, .heads p ((head, continuation) :: rest), t =>
    if isMedium g head then
      if t.visited.contains head then tour? g depth (.heads p rest) (t.meet p head)
      else
        (tour? g depth (.level ⟨head, []⟩ ((g.trie? head).getD .empty)) (t.enter head)).bind
          (tour? g depth (.heads p rest))
    else
      (tour? g depth (.behind (p.past head) continuation) t).bind (tour? g depth (.heads p rest))
  | depth + 1, .behind p continuation, t =>
    match continuation.bind g.trie? with
    | some trie => tour? g depth (.level p trie) t
    | none => some t

theorem tours_of_tour? {depth : Nat} {leg : Leg} {t t' : Tour} (h : tour? g depth leg t = some t') :
    Tours g leg t t' := by
  induction depth generalizing leg t t' with
  | zero => cases h
  | succ depth ih =>
    match leg with
    | .level p trie => exact .level (ih h)
    | .heads p [] =>
      cases h
      exact .done
    | .heads p ((head, continuation) :: rest) =>
      rw [tour?] at h
      split at h
      next hm =>
        split at h
        next hv => exact .again hm (List.contains_iff_mem.1 hv) (ih h)
        next hv =>
          obtain ⟨t₁, hl, h⟩ := Option.bind_eq_some_iff.1 h
          exact .enter hm (fun hmem => hv (List.contains_iff_mem.2 hmem)) (ih hl) (ih h)
      next hm =>
        obtain ⟨t₁, hb, h⟩ := Option.bind_eq_some_iff.1 h
        exact .pass hm (ih hb) (ih h)
    | .behind p continuation =>
      rw [tour?] at h
      split at h
      next trie hc => exact .goes hc (ih h)
      next hc =>
        cases h
        exact .ends hc

/-- What one tour through the token does not meet again is not met again. -/
theorem not_metAgain_of_tour? {depth : Nat} {t : Tour} {p : Place} {medium : NodeId}
    (h : tour? g depth (tourOf g token) ⟨[token], []⟩ = some t) (hout : (p, medium) ∉ t.again) :
    ¬MetAgain g token p medium := by
  rintro ⟨t', ht', hmem⟩
  exact hout ((tours_of_tour? h).unique ht' ▸ hmem)

/-! ### Walks and tours -/

theorem not_isMedium_of_class {head : NodeId} {data : ClassData}
    (hc : classOf? g head = some data) : ¬isMedium g head := by
  intro hm
  cases (classOf?_of_isMedium hm).symm.trans hc

/-- A walk beside its tour: the same mediums visited, a loop for each that was met again. -/
structure Beside (w : TokenWalk) (t : Tour) : Prop where
  visited (medium : NodeId) : w.visited.contains medium ↔ medium ∈ t.visited
  again (e : Place × NodeId) : e ∈ t.again → ∃ state, (state, e.2) ∈ w.loops

section Beside

variable {w w' : TokenWalk} {t : Tour}

theorem Beside.not_mem (h : Beside w t) {medium : NodeId} (hv : w.visited.contains medium = false) :
    medium ∉ t.visited := fun hmem =>
  Bool.false_ne_true (hv.symm.trans ((h.visited medium).2 hmem))

/-- Only what was visited and met matters. -/
theorem Beside.of_synthesis (h : Beside w t) (s : Synthesis) :
    Beside { w with synthesis := s } t := ⟨h.visited, h.again⟩

theorem Beside.enter (h : Beside w t) (medium : NodeId) (v : Option Links) :
    Beside { w with visited := w.visited.insert medium v } (t.enter medium) where
  visited id := by
    rw [Dictionary.contains_insert, h.visited, Tour.enter, List.mem_cons]
  again := h.again

/-- What is noted of a visited medium changes nothing. -/
theorem Beside.noting (h : Beside w t) {medium : NodeId} (hm : w.visited.contains medium)
    (v : Option Links) : Beside { w with visited := w.visited.insert medium v } t where
  visited id := by
    rw [Dictionary.contains_insert, ← h.visited, or_iff_right_iff_imp]
    rintro rfl
    exact hm
  again := h.again

theorem Beside.meet (h : Beside w t) {state : StateId} {medium : NodeId}
    (ha : meetAgain g accept w state medium = .ok w') (p : Place) :
    Beside w' (t.meet p medium) := by
  obtain ⟨s, -, rfl⟩ := meetAgain_cases ha
  refine ⟨h.visited, fun e he => ?_⟩
  rcases List.mem_cons.1 he with rfl | he
  · exact ⟨state, List.mem_append_right _ (List.mem_singleton.2 rfl)⟩
  · exact (h.again e he).imp (fun _ hl => List.mem_append_left _ hl)

end Beside

/-- Every walk has its tour. -/
theorem Walks.tours {task : Task} {w w' : TokenWalk} {links : Links} {t : Tour}
    (h : Walks g accept task w links w') (hb : Beside w t) :
    ∃ t', Tours g task.leg t t' ∧ Beside w' t' := by
  induction h generalizing t with
  | level _ ha _ ih =>
    obtain ⟨s, rfl⟩ := acceptIf_cases ha
    obtain ⟨t', ht', hb'⟩ := ih (hb.of_synthesis s)
    exact ⟨t', .level ht', hb'⟩
  | done => exact ⟨t, .done, hb⟩
  | terminal hn ht hsp _ _ ihb ih =>
    cases hsp
    obtain ⟨t₁, ht₁, hb₁⟩ := ihb (hb.of_synthesis _)
    obtain ⟨t', ht', hb'⟩ := ih hb₁
    exact ⟨t', .pass (not_isMedium_of_isTerminal (isTerminal_of_node? hn ht)) ht₁ ht', hb'⟩
  | @again p _ _ _ _ _ _ _ _ hm hv ha _ ih =>
    obtain ⟨t', ht', hb'⟩ := ih (hb.meet ha p)
    exact ⟨t', .again hm ((hb.visited _).1 hv) ht', hb'⟩
  | @enter p head rest state links nested links₁ w w₁ w₂ hm hv hl _ ihl ih =>
    obtain ⟨t₁, ht₁, hb₁⟩ := ihl (hb.enter _ none)
    have hinside : w₁.visited.contains head :=
      (hb₁.visited head).2 (ht₁.visited_subset List.mem_cons_self)
    obtain ⟨t', ht', hb'⟩ := ih (hb₁.noting hinside _)
    exact ⟨t', .enter hm (hb.not_mem hv) ht₁ ht', hb'⟩
  | symbolClass hc hsp _ _ ihb ih =>
    cases hsp
    obtain ⟨t₁, ht₁, hb₁⟩ := ihb (hb.of_synthesis _)
    obtain ⟨t', ht', hb'⟩ := ih hb₁
    exact ⟨t', .pass (not_isMedium_of_class hc) ht₁ ht', hb'⟩
  | ends hc ha =>
    obtain ⟨s, -, rfl⟩ := accept_cases ha
    exact ⟨t, .ends hc, hb.of_synthesis s⟩
  | goes hc _ ih =>
    obtain ⟨t', ht', hb'⟩ := ih hb
    exact ⟨t', .goes hc ht', hb'⟩

/-- The walk and its tour go on beside each other. -/
theorem Walks.beside {task : Task} {w w' : TokenWalk} {links : Links} {t t' : Tour}
    (h : Walks g accept task w links w') (ht : Tours g task.leg t t') (hb : Beside w t) :
    Beside w' t' := by
  obtain ⟨t'', ht'', hb''⟩ := h.tours hb
  exact ht.unique ht'' ▸ hb''

/-- What is left of the tour through the token beside a walk. -/
def Toured (g : Grammar) (token : NodeId) (leg : Leg) (w : TokenWalk) : Prop :=
  ∃ t t', Tours g leg t t' ∧ Beside w t ∧ ∀ e ∈ t'.again, MetAgain g token e.1 e.2

section Toured

variable {p : Place} {head : NodeId} {continuation : Option NodeId}
  {rest : List (NodeId × Option NodeId)} {state last : StateId} {links : Links} {trie : Trie}
  {w w₁ : TokenWalk}

theorem Toured.level (h : Toured g token (.level p trie) w) (s : Synthesis) :
    Toured g token (.heads p (ordered g trie.cases)) { w with synthesis := s } := by
  obtain ⟨t, t', ht, hb, hmet⟩ := h
  cases ht with
  | level ht => exact ⟨t, t', ht, hb.of_synthesis s, hmet⟩

theorem Toured.again (h : Toured g token (.heads p ((head, continuation) :: rest)) w)
    (hm : isMedium g head) (hv : w.visited.contains head)
    (ha : meetAgain g accept w state head = .ok w₁) :
    MetAgain g token p head ∧ Toured g token (.heads p rest) w₁ := by
  obtain ⟨t, t', ht, hb, hmet⟩ := h
  have hrest := ht.of_again hm ((hb.visited head).1 hv)
  exact ⟨hmet _ (hrest.again_subset List.mem_cons_self), _, t', hrest, hb.meet ha p, hmet⟩

theorem Toured.enter (h : Toured g token (.heads p ((head, continuation) :: rest)) w)
    (hm : isMedium g head) (hv : w.visited.contains head = false)
    (hl : Walks g accept (.level ⟨head, []⟩ ((g.trie? head).getD .empty) state)
      { w with visited := w.visited.insert head none } links w₁) :
    Toured g token (.level ⟨head, []⟩ ((g.trie? head).getD .empty))
        { w with visited := w.visited.insert head none } ∧
      Toured g token (.heads p rest)
        { w₁ with visited := w₁.visited.insert head (some links) } := by
  obtain ⟨t, t', ht, hb, hmet⟩ := h
  obtain ⟨t₁, ht₁, hrest⟩ := ht.of_enter hm (hb.not_mem hv)
  have hb₁ := hl.beside ht₁ (hb.enter head none)
  have hinside := (hb₁.visited head).2 (ht₁.visited_subset List.mem_cons_self)
  exact ⟨⟨_, t₁, ht₁, hb.enter head none, fun e he => hmet e (hrest.again_subset he)⟩,
    t₁, t', hrest, hb₁.noting hinside _, hmet⟩

theorem Toured.pass (h : Toured g token (.heads p ((head, continuation) :: rest)) w)
    (hm : ¬isMedium g head) {s : Synthesis}
    (hb : Walks g accept (.behind (p.past head) continuation last) { w with synthesis := s } links
      w₁) :
    Toured g token (.behind (p.past head) continuation) { w with synthesis := s } ∧
      Toured g token (.heads p rest) w₁ := by
  obtain ⟨t, t', ht, hbeside, hmet⟩ := h
  obtain ⟨t₁, ht₁, hrest⟩ := ht.of_pass hm
  exact ⟨⟨t, t₁, ht₁, hbeside.of_synthesis s, fun e he => hmet e (hrest.again_subset he)⟩,
    t₁, t', hrest, hb.beside ht₁ (hbeside.of_synthesis s), hmet⟩

theorem Toured.goes {next : NodeId} (h : Toured g token (.behind p (some next)) w)
    (ht : g.trie? next = some trie) : Toured g token (.level p trie) w := by
  obtain ⟨t, t', htours, hb, hmet⟩ := h
  cases htours with
  | ends hc => cases hc.symm.trans ht
  | goes hc h =>
    obtain rfl := Option.some.inj (ht.symm.trans hc)
    exact ⟨t, t', h, hb, hmet⟩

end Toured

theorem beside_walkOf (s : Synthesis) (token : NodeId) : Beside (s.walkOf token) ⟨[token], []⟩ where
  visited medium := by
    rw [Synthesis.walkOf, Dictionary.contains_insert, List.mem_singleton, or_iff_left]
    exact Bool.false_ne_true
  again _ he := absurd he List.not_mem_nil

section Token

variable {s : Synthesis} {links : Links} {w : TokenWalk}

/-- The walk over a token goes along the tour through it. -/
theorem toured_of_walks (h : Walks g accept (Synthesis.taskOf g token) (s.walkOf token) links w) :
    Toured g token (Synthesis.taskOf g token).leg (s.walkOf token) := by
  obtain ⟨t, ht, -⟩ := h.tours (beside_walkOf s token)
  exact ⟨_, t, ht, beside_walkOf s token, fun e he => ⟨t, ht, he⟩⟩

/-- What a walk over the token meets again comes again in it. -/
theorem comesAgain_of_metAgain (hg : g.Factored) (hm : isMedium g token)
    (h : Walks g accept (Synthesis.taskOf g token) (s.walkOf token) links w) {p : Place}
    {medium : NodeId} (hmet : MetAgain g token p medium) : g.ComesAgain token medium := by
  obtain ⟨t, ht, he⟩ := hmet
  obtain ⟨state, hl⟩ := (h.beside ht (beside_walkOf s token)).again _ he
  exact comesAgain_of_mem_loops hg hm h _ hl

end Token

end Syntagma.TokenWalk
