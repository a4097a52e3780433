import Syntagma.Proofs.Automaton.Growth
import Syntagma.Proofs.Grammar.Generation

/-! Mediums that a walk meets again. Whenever a walk comes to a medium it stands at a place of some
medium's cases, and it never stands at one place twice. A medium is entered where the walk first
comes to it, so where it is met again is another place, or the medium is the token itself. -/

namespace Syntagma.TokenWalk

variable {g : Grammar} {token : NodeId} {accept : AcceptToken}

/-! ### Places -/

/-- What stands behind a head spells the rest. -/
def SpellsBehind (g : Grammar) (next : Option NodeId) (rest : List NodeId) : Prop :=
  match next with
  | none => rest = []
  | some factor => ∃ inner, g.trie? factor = some inner ∧ inner.Spells g.trie? rest

namespace Task

/-- The place that a task starts from. -/
def place : Task → Place
  | .level p _ _ => p
  | .heads p _ _ _ => p
  | .behind p _ _ => p

/-- What is left of a task continues what was read of the cases of its medium. -/
def Continues (g : Grammar) : Task → Prop
  | .level p trie _ => (trie.cases.map (·.1)).Nodup ∧
      ∀ rest, trie.Spells g.trie? rest → g.Spells p.medium (p.read ++ rest)
  | .heads p cases _ _ => (cases.map (·.1)).Nodup ∧
      ∀ e ∈ cases, ∀ rest, SpellsBehind g e.2 rest → g.Spells p.medium (p.read ++ e.1 :: rest)
  | .behind p continuation _ =>
      ∀ rest, SpellsBehind g continuation rest → g.Spells p.medium (p.read ++ rest)

/-- A place of the same medium that is ahead of the task, with the symbol that stands there. -/
def Owns : Task → Place → NodeId → Prop
  | .level p _ _, q, _ => q.medium = p.medium ∧ p.read <+: q.read
  | .heads p cases _ _, q, head => q.medium = p.medium ∧
      ∃ e ∈ cases, (q.read = p.read ∧ head = e.1) ∨ p.read ++ [e.1] <+: q.read
  | .behind p _ _, q, _ => q.medium = p.medium ∧ p.read <+: q.read

/-- The task stands in a medium that the token leads to. -/
structure Placed (g : Grammar) (token : NodeId) (task : Task) : Prop where
  within : g.Within token task.place.medium
  medium : isMedium g task.place.medium
  continues : task.Continues g

end Task

/-! ### Meetings -/

/-- The places at which a walk comes to mediums, each with whether the medium is entered there.
Within the medium that the walk stands in, they are places that it owns. -/
structure Meets (g : Grammar) (token : NodeId) (owns : Place → NodeId → Prop) (w w' : TokenWalk)
    (meeting : Place → NodeId → Bool → Prop) : Prop where
  kept (medium : NodeId) : w.visited.contains medium → w'.visited.contains medium
  apart (q : Place) (head : NodeId) : meeting q head true → ¬meeting q head false
  ahead (q : Place) (head : NodeId) (entered : Bool) : meeting q head entered →
    owns q head ∨ w.visited.contains q.medium = false
  inside (q : Place) (head : NodeId) (entered : Bool) : meeting q head entered →
    w'.visited.contains q.medium
  occurs (q : Place) (head : NodeId) (entered : Bool) : meeting q head entered →
    g.Within token q.medium ∧ g.Occurs q.medium q.read head
  first (head : NodeId) : w'.visited.contains head → w.visited.contains head ∨
    ∃ q, meeting q head true
  again (e : StateId × NodeId) : e ∈ w'.loops → e ∈ w.loops ∨
    w'.visited.contains e.2 ∧ ∃ q, meeting q e.2 false

section Meeting

variable {owns owns₁ owns₂ : Place → NodeId → Prop} {w w₁ w₂ : TokenWalk}
  {meeting meeting₁ meeting₂ : Place → NodeId → Bool → Prop}

/-- Nothing is met as long as only the states change. -/
theorem meets_nothing (owns : Place → NodeId → Prop) (hv : w₁.visited = w.visited)
    (hl : w₁.loops = w.loops) : Meets g token owns w w₁ (fun _ _ _ => False) where
  kept _ h := hv ▸ h
  apart _ _ h := h.elim
  ahead _ _ _ h := h.elim
  inside _ _ _ h := h.elim
  occurs _ _ _ h := h.elim
  first _ h := .inl (hv ▸ h)
  again _ h := .inl (hl ▸ h)

/-- Only what was visited and met before a walk matters. -/
theorem Meets.of_synthesis {s : Synthesis}
    (h : Meets g token owns { w with synthesis := s } w₁ meeting) :
    Meets g token owns w w₁ meeting :=
  ⟨h.kept, h.apart, h.ahead, h.inside, h.occurs, h.first, h.again⟩

/-- Two walks one behind the other meet mediums at different places. -/
theorem Meets.append (h₁ : Meets g token owns₁ w w₁ meeting₁)
    (h₂ : Meets g token owns₂ w₁ w₂ meeting₂)
    (hdisjoint : ∀ q head, owns₁ q head → ¬owns₂ q head)
    (hin : ∀ q head, owns₂ q head → w.visited.contains q.medium)
    (hsub₁ : ∀ q head, owns₁ q head → owns q head) (hsub₂ : ∀ q head, owns₂ q head → owns q head) :
    Meets g token owns w w₂ (fun q head entered => meeting₁ q head entered ∨
      meeting₂ q head entered) := by
  have hcross {q : Place} {head : NodeId} {b b' : Bool} (hm₁ : meeting₁ q head b)
      (hm₂ : meeting₂ q head b') : False := by
    rcases h₂.ahead q head b' hm₂ with ho₂ | hnew
    · rcases h₁.ahead q head b hm₁ with ho₁ | hnew
      · exact hdisjoint q head ho₁ ho₂
      · exact Bool.false_ne_true (hnew.symm.trans (hin q head ho₂))
    · exact Bool.false_ne_true (hnew.symm.trans (h₁.inside q head b hm₁))
  refine ⟨fun medium h => h₂.kept medium (h₁.kept medium h), fun q head he ha => ?_,
    fun q head b hm => ?_, fun q head b hm => ?_, fun q head b hm => ?_, fun head hv => ?_,
    fun e he => ?_⟩
  · rcases he with he | he <;> rcases ha with ha | ha
    · exact h₁.apart q head he ha
    · exact hcross he ha
    · exact hcross ha he
    · exact h₂.apart q head he ha
  · rcases hm with hm | hm
    · exact (h₁.ahead q head b hm).imp_left (hsub₁ q head)
    · refine (h₂.ahead q head b hm).imp (hsub₂ q head) (fun hnew => ?_)
      rw [← Bool.not_eq_true] at hnew ⊢
      exact fun hv => hnew (h₁.kept _ hv)
  · exact hm.elim (fun hm => h₂.kept _ (h₁.inside q head b hm)) (h₂.inside q head b)
  · exact hm.elim (h₁.occurs q head b) (h₂.occurs q head b)
  · rcases h₂.first head hv with hv | ⟨q, hq⟩
    · exact (h₁.first head hv).imp_right (fun ⟨q, hq⟩ => ⟨q, .inl hq⟩)
    · exact .inr ⟨q, .inr hq⟩
  · rcases h₂.again e he with he | ⟨hv, q, hq⟩
    · exact (h₁.again e he).imp_right (fun ⟨hv, q, hq⟩ => ⟨h₂.kept _ hv, q, .inl hq⟩)
    · exact .inr ⟨hv, q, .inr hq⟩

/-- A medium that is entered is met where it is entered, and what the walk through it meets are
places of this medium or of mediums that were not entered before. -/
theorem Meets.enter {p : Place} {medium : NodeId} (links : Links)
    (h : Meets g token owns { w with visited := w.visited.insert medium none } w₁ meeting)
    (howns : ∀ q head, owns q head → q.medium = medium) (hp : w.visited.contains p.medium)
    (hnew : w.visited.contains medium = false)
    (hoccurs : g.Within token p.medium ∧ g.Occurs p.medium p.read medium) :
    Meets g token (fun q head => q = p ∧ head = medium) w
      { w₁ with visited := w₁.visited.insert medium (some links) }
      (fun q head entered => meeting q head entered ∨ q = p ∧ head = medium ∧ entered) := by
  have hne : p.medium ≠ medium := by
    intro he
    exact Bool.false_ne_true (hnew.symm.trans (he ▸ hp))
  have hwas {id : NodeId} (hv : w.visited.contains id) :
      (w.visited.insert medium none).contains id := Dictionary.contains_insert.2 (.inr hv)
  have hcross {b : Bool} (hm : meeting p medium b) : False := by
    rcases h.ahead p medium b hm with ho | hno
    · exact hne (howns p medium ho)
    · exact Bool.false_ne_true (hno.symm.trans (hwas hp))
  refine ⟨fun id hv => ?_, fun q head he ha => ?_, fun q head b hm => ?_, fun q head b hm => ?_,
    fun q head b hm => ?_, fun head hv => ?_, fun e he => ?_⟩
  · exact Dictionary.contains_insert.2 (.inr (h.kept id (hwas hv)))
  · rcases ha with ha | ⟨-, -, ha⟩
    · rcases he with he | ⟨rfl, rfl, -⟩
      · exact h.apart q head he ha
      · exact hcross ha
    · exact Bool.false_ne_true ha
  · rcases hm with hm | ⟨rfl, rfl, -⟩
    · rw [← Bool.not_eq_true]
      refine .inr (fun hv => ?_)
      rcases h.ahead q head b hm with ho | hno
      · exact Bool.false_ne_true (hnew.symm.trans (howns q head ho ▸ hv))
      · exact Bool.false_ne_true (hno.symm.trans (hwas hv))
    · exact .inl ⟨rfl, rfl⟩
  · rcases hm with hm | ⟨rfl, rfl, -⟩
    · exact Dictionary.contains_insert.2 (.inr (h.inside q head b hm))
    · exact Dictionary.contains_insert.2 (.inr (h.kept _ (hwas hp)))
  · rcases hm with hm | ⟨rfl, rfl, -⟩
    · exact h.occurs q head b hm
    · exact hoccurs
  · rcases Dictionary.contains_insert.1 hv with rfl | hv
    · exact .inr ⟨p, .inr ⟨rfl, rfl, rfl⟩⟩
    rcases h.first head hv with hv | ⟨q, hq⟩
    · rcases Dictionary.contains_insert.1 hv with rfl | hv
      · exact .inr ⟨p, .inr ⟨rfl, rfl, rfl⟩⟩
      · exact .inl hv
    · exact .inr ⟨q, .inl hq⟩
  · refine (h.again e he).imp_right (fun ⟨hv, q, hq⟩ => ⟨?_, q, .inl hq⟩)
    exact Dictionary.contains_insert.2 (.inr hv)

end Meeting

/-! ### Whole walks -/

/-- A medium that the walk comes to stands in a case. -/
theorem Task.Placed.occurs {p : Place} {head : NodeId} {rest : List (NodeId × Option NodeId)}
    {state : StateId} {links : Links} (hg : g.Factored)
    (h : (Task.heads p ((head, none) :: rest) state links).Placed g token) :
    g.Within token p.medium ∧ g.Occurs p.medium p.read head := by
  obtain ⟨n, -, hn, hm, -⟩ := exists_trie_of_isMedium h.medium
  exact ⟨h.within, (hg.merges _ n hn hm).exists_of_spells (h.continues.2 _ List.mem_cons_self [] rfl)⟩

/-- The same for the heads that are left. -/
theorem Task.Placed.tail {p : Place} {e : NodeId × Option NodeId}
    {rest : List (NodeId × Option NodeId)} {state : StateId} {links links' : Links}
    (h : (Task.heads p (e :: rest) state links).Placed g token) :
    (Task.heads p rest state links').Placed g token :=
  ⟨h.within, h.medium, (List.nodup_cons.1 h.continues.1).2,
    fun e he => h.continues.2 e (List.mem_cons_of_mem _ he)⟩

/-- Behind a head the walk goes on in the same medium. -/
theorem Task.Placed.behind {p : Place} {head : NodeId} {continuation : Option NodeId}
    {rest : List (NodeId × Option NodeId)} {state state' : StateId} {links : Links}
    (h : (Task.heads p ((head, continuation) :: rest) state links).Placed g token) :
    (Task.behind (p.past head) continuation state').Placed g token := by
  refine ⟨h.within, h.medium, fun more hs => ?_⟩
  have hc := h.continues.2 _ List.mem_cons_self more hs
  simpa [Place.past] using hc

/-- What is owned behind a head is not owned by the heads that are left. -/
theorem Task.Placed.not_owns {p : Place} {e : NodeId × Option NodeId}
    {rest : List (NodeId × Option NodeId)} {state : StateId} {links links' : Links}
    (h : (Task.heads p (e :: rest) state links).Placed g token) {q : Place} {head : NodeId}
    (hq : (q.read = p.read ∧ head = e.1) ∨ p.read ++ [e.1] <+: q.read) :
    ¬(Task.heads p rest state links').Owns q head := by
  rintro ⟨-, e', he', ho⟩
  have hne : e.1 ≠ e'.1 := by
    intro heq
    have hmem : e'.1 ∈ rest.map (·.1) := List.mem_map_of_mem he'
    rw [← heq] at hmem
    exact (List.nodup_cons.1 h.continues.1).1 hmem
  have hlonger {x : NodeId} (hr : q.read = p.read) (hx : p.read ++ [x] <+: q.read) : False := by
    have hle := hx.length_le
    rw [hr, List.length_append, List.length_singleton] at hle
    exact Nat.not_succ_le_self _ hle
  rcases hq with ⟨hr, rfl⟩ | hx <;> rcases ho with ⟨hr', hh⟩ | hx'
  · exact hne hh
  · exact hlonger hr hx'
  · exact hlonger hr' hx
  · have hsame := List.prefix_of_prefix_length_le hx hx' (by simp)
    have heq := hsame.eq_of_length (by simp)
    simp only [List.append_cancel_left_eq, List.cons.injEq, and_true] at heq
    exact hne heq

/-- What is met behind a head and what is met at the heads that are left. -/
theorem Meets.through {p : Place} {head : NodeId} {continuation : Option NodeId}
    {rest : List (NodeId × Option NodeId)} {state last : StateId} {links links' : Links}
    {w w₁ w₂ : TokenWalk} {meeting₁ meeting₂ : Place → NodeId → Bool → Prop}
    (h₁ : Meets g token (Task.behind (p.past head) continuation last).Owns w w₁ meeting₁)
    (h₂ : Meets g token (Task.heads p rest state links').Owns w₁ w₂ meeting₂)
    (hp : (Task.heads p ((head, continuation) :: rest) state links).Placed g token)
    (hv : w.visited.contains p.medium) :
    Meets g token (Task.heads p ((head, continuation) :: rest) state links).Owns w w₂
      (fun q head entered => meeting₁ q head entered ∨ meeting₂ q head entered) := by
  refine h₁.append h₂ (fun q head ho => hp.not_owns (.inr ho.2)) (fun q head ho => ?_)
    (fun q head ho => ⟨ho.1, _, List.mem_cons_self, .inr ho.2⟩)
    (fun q head ho => ⟨ho.1, ho.2.imp (fun e he => ⟨List.mem_cons_of_mem _ he.1, he.2⟩)⟩)
  have hsame : q.medium = p.medium := ho.1
  rwa [hsame]

/-- A head and what is met at the heads that are left. -/
theorem Meets.before {p : Place} {head : NodeId} {rest : List (NodeId × Option NodeId)}
    {state : StateId} {links links' : Links} {w w₁ w₂ : TokenWalk}
    {meeting₁ meeting₂ : Place → NodeId → Bool → Prop}
    (h₁ : Meets g token (fun q other => q = p ∧ other = head) w w₁ meeting₁)
    (h₂ : Meets g token (Task.heads p rest state links').Owns w₁ w₂ meeting₂)
    (hp : (Task.heads p ((head, none) :: rest) state links).Placed g token)
    (hv : w.visited.contains p.medium) :
    Meets g token (Task.heads p ((head, none) :: rest) state links).Owns w w₂
      (fun q head entered => meeting₁ q head entered ∨ meeting₂ q head entered) := by
  refine h₁.append h₂ (fun q other ho => ?_) (fun q other ho => ?_) (fun q other ho => ?_)
    (fun q other ho => ⟨ho.1, ho.2.imp (fun e he => ⟨List.mem_cons_of_mem _ he.1, he.2⟩)⟩)
  · obtain ⟨rfl, rfl⟩ := ho
    exact hp.not_owns (.inl ⟨rfl, rfl⟩)
  · have hsame : q.medium = p.medium := ho.1
    rwa [hsame]
  · obtain ⟨rfl, rfl⟩ := ho
    exact ⟨rfl, _, List.mem_cons_self, .inl ⟨rfl, rfl⟩⟩

/-- A medium that is met again at a place of the medium that the walk stands in. -/
theorem Meets.again_here {p : Place} {medium : NodeId} {state : StateId} {w w₁ : TokenWalk}
    (ha : meetAgain g accept w state medium = .ok w₁) (hv : w.visited.contains medium)
    (hp : w.visited.contains p.medium)
    (hoccurs : g.Within token p.medium ∧ g.Occurs p.medium p.read medium) :
    Meets g token (fun q other => q = p ∧ other = medium) w w₁
      (fun q other entered => q = p ∧ other = medium ∧ entered = false) := by
  obtain ⟨s, -, rfl⟩ := meetAgain_cases ha
  refine ⟨fun _ h => h, fun q head he _ => ?_, fun q head b hm => .inl ⟨hm.1, hm.2.1⟩,
    fun q head b hm => ?_, fun q head b hm => ?_, fun head h => .inl h, fun e he => ?_⟩
  · cases he.2.2
  · exact hm.1 ▸ hp
  · rw [hm.1, hm.2.1]
    exact hoccurs
  · refine (List.mem_append.1 he).imp_right (fun he => ?_)
    obtain rfl := List.mem_singleton.1 he
    exact ⟨hv, p, rfl, rfl, rfl⟩

/-- The heads of a trie with each head once, in the order in which they are taken. -/
theorem nodup_ordered {cases : List (NodeId × Option NodeId)} (h : (cases.map (·.1)).Nodup) :
    ((ordered g cases).map (·.1)).Nodup := by
  have hfilter (keep : NodeId × Option NodeId → Bool) : ((cases.filter keep).map (·.1)).Nodup :=
    h.sublist (List.filter_sublist.map _)
  have hholds (keep : NodeId → Bool) {id : NodeId}
      (hm : id ∈ (cases.filter (fun e => keep e.1)).map (·.1)) : keep id := by
    obtain ⟨e, he, rfl⟩ := List.mem_map.1 hm
    exact (List.mem_filter.1 he).2
  unfold ordered
  rw [List.map_append, List.map_append, List.nodup_append', List.nodup_append']
  refine ⟨⟨hfilter _, hfilter _, fun id ht hm => ?_⟩, hfilter _, fun id hl hc => ?_⟩
  · exact not_isMedium_of_isTerminal (hholds _ ht) (hholds _ hm)
  · have hclass := hholds (fun id => (classOf? g id).isSome) hc
    rcases List.mem_append.1 hl with ht | hm
    · rw [classOf?_of_isTerminal (hholds _ ht)] at hclass
      cases hclass
    · rw [classOf?_of_isMedium (hholds _ hm)] at hclass
      cases hclass

theorem mem_of_mem_ordered {cases : List (NodeId × Option NodeId)} {e : NodeId × Option NodeId}
    (h : e ∈ ordered g cases) : e ∈ cases := by
  rcases List.mem_append.1 h with h | h
  · rcases List.mem_append.1 h with h | h <;> exact (List.mem_filter.1 h).1
  · exact (List.mem_filter.1 h).1

/-- A walk that stands in a medium meets mediums at places that it owns, and in mediums that it
enters. -/
theorem Walks.meets {task : Task} {w w' : TokenWalk} {links : Links} (hg : g.Factored)
    (h : Walks g accept task w links w') (hp : task.Placed g token)
    (hv : w.visited.contains task.place.medium) :
    ∃ meeting, Meets g token task.Owns w w' meeting := by
  induction h with
  | @level p trie state w w₁ w₂ links _ ha _ ih =>
    obtain ⟨s, rfl⟩ := acceptIf_cases ha
    have hheads : (Task.heads p (ordered g trie.cases) state .empty).Placed g token := by
      refine ⟨hp.within, hp.medium, nodup_ordered hp.continues.1, fun e he rest hs => ?_⟩
      exact hp.continues.2 _ ⟨e.2, mem_of_mem_ordered he, hs⟩
    obtain ⟨meeting, hm⟩ := ih hheads hv
    refine ⟨meeting, hm.kept, hm.apart, fun q head b hq => ?_, hm.inside, hm.occurs, hm.first,
      hm.again⟩
    refine (hm.ahead q head b hq).imp_left (fun ho => ⟨ho.1, ?_⟩)
    obtain ⟨e, -, ⟨hr, -⟩ | hr⟩ := ho.2
    · exact hr ▸ List.prefix_refl _
    · exact (List.prefix_append _ _).trans hr
  | done w => exact ⟨_, meets_nothing _ rfl rfl⟩
  | @terminal p head continuation rest state last links links₁ links₂ w w₁ w₂ w₃ n _ _ hsp _ _ ihb
      ih =>
    cases hsp
    obtain ⟨meeting₁, hm₁⟩ := ihb hp.behind hv
    obtain ⟨meeting₂, hm₂⟩ := ih hp.tail (hm₁.kept _ hv)
    exact ⟨_, hm₁.of_synthesis.through hm₂ hp hv⟩
  | again _ hvisited ha _ ih =>
    have hm₁ := Meets.again_here ha hvisited hv (hp.occurs hg)
    obtain ⟨meeting₂, hm₂⟩ := ih hp.tail (hm₁.kept _ hv)
    exact ⟨_, hm₁.before hm₂ hp hv⟩
  | @enter p head rest state links nested links₁ w w₁ w₂ hmedium hnew _ _ ihl ih =>
    obtain ⟨n, trie, hn, hm, ht⟩ := exists_trie_of_isMedium hmedium
    have hoccurs := hp.occurs hg
    have hlevel : (Task.level ⟨head, []⟩ ((g.trie? head).getD .empty) state).Placed g token := by
      rw [ht]
      refine ⟨.step hoccurs.1 hoccurs.2, hmedium, hg.linked.nodup head trie ht, fun rest hs => ?_⟩
      exact ⟨trie, ht, hs⟩
    obtain ⟨meeting₁, hm₁⟩ := ihl hlevel (Dictionary.contains_insert.2 (.inl rfl))
    have hentered := hm₁.enter nested (fun q head ho => ho.1) hv hnew hoccurs
    obtain ⟨meeting₂, hm₂⟩ := ih hp.tail (hentered.kept _ hv)
    exact ⟨_, hentered.before hm₂ hp hv⟩
  | symbolClass _ hsp _ _ ihb ih =>
    cases hsp
    obtain ⟨meeting₁, hm₁⟩ := ihb hp.behind hv
    obtain ⟨meeting₂, hm₂⟩ := ih hp.tail (hm₁.kept _ hv)
    exact ⟨_, hm₁.of_synthesis.through hm₂ hp hv⟩
  | ends _ ha =>
    obtain ⟨s, -, rfl⟩ := accept_cases ha
    exact ⟨_, meets_nothing _ rfl rfl⟩
  | @goes p next trie state links w w₁ ht _ ih =>
    refine ih ⟨hp.within, hp.medium, hg.linked.nodup next trie ht, fun rest hs => ?_⟩ hv
    exact hp.continues rest ⟨trie, ht, hs⟩

/-- In the walk over a token only mediums that come again are met again. -/
theorem comesAgain_of_mem_loops (hg : g.Factored) (ht : isMedium g token) {s : Synthesis}
    {links : Links} {w : TokenWalk}
    (h : Walks g accept (Synthesis.taskOf g token) (s.walkOf token) links w) :
    ∀ e ∈ w.loops, g.ComesAgain token e.2 := by
  obtain ⟨n, trie, hn, hm, htrie⟩ := exists_trie_of_isMedium ht
  have hplaced : (Synthesis.taskOf g token).Placed g token := by
    unfold Synthesis.taskOf
    rw [htrie]
    exact ⟨.self, ht, hg.linked.nodup token trie htrie, fun rest hs => ⟨trie, htrie, hs⟩⟩
  obtain ⟨meeting, hmeets⟩ := h.meets hg hplaced (Dictionary.contains_insert.2 (.inl rfl))
  intro e he
  obtain ⟨hv, q, hq⟩ := (hmeets.again e he).resolve_left List.not_mem_nil
  obtain ⟨hwithin, hoccurs⟩ := hmeets.occurs q e.2 false hq
  refine ⟨q.medium, q.read, hwithin, hoccurs, ?_⟩
  rcases hmeets.first e.2 hv with hfirst | ⟨q', hq'⟩
  · refine .inl ((Dictionary.contains_insert.1 hfirst).resolve_right ?_)
    exact Bool.false_ne_true
  · obtain ⟨hwithin', hoccurs'⟩ := hmeets.occurs q' e.2 true hq'
    refine .inr ⟨q'.medium, q'.read, hwithin', hoccurs', fun heq => ?_⟩
    obtain rfl : q' = q := by
      obtain ⟨medium, read⟩ := q
      obtain ⟨medium', read'⟩ := q'
      obtain ⟨rfl, rfl⟩ := Prod.mk.inj heq
      rfl
    exact hmeets.apart q' e.2 hq' hq

end Syntagma.TokenWalk
