import Syntagma.Proofs.Grammar.Stacking
import Syntagma.Proofs.Grammar.WellFormed

/-! Where one comes to by going on from a medium. Every factor is owned by the medium it was made
for, and one goes on to factors of the same owner that rank lower, but for the way from a loop to
itself. Publication gives the nodes other numbers, under which they keep both. -/

namespace Syntagma

section Going

variable (trie? : NodeId → Option Trie)

/-- Whether the node is a loop. -/
def IsLoop (i : NodeId) : Prop := ∃ tails, trie? i = some (.loop tails i)

/-- One goes on to the factor behind a head, to the loop behind it all, or, in a loop, into the
tails. -/
inductive Leads : NodeId → NodeId → Prop where
  | behind {i next : NodeId} {t : Trie} {e : NodeId × Option NodeId} (ht : trie? i = some t)
    (he : e ∈ t.cases) (hn : next ∈ e.2) : Leads i next
  | recursion {i next : NodeId} {t : Trie} (ht : trie? i = some t) (hn : next ∈ t.recursion) :
    Leads i next
  | tails {i tails : NodeId} (ht : trie? i = some (.loop tails i)) : Leads i tails

/-- The node lies further down, with the same owner. -/
def Further (owner : NodeId → NodeId) (rank : NodeId → Nat) (i next : NodeId) : Prop :=
  owner next = owner i ∧ rank next < rank i

/-- One goes on further down only, but for the way from a loop to itself, and behind a head to no
loop. -/
structure Descends (owner : NodeId → NodeId) (rank : NodeId → Nat) : Prop where
  behind (i : NodeId) (t : Trie) : trie? i = some t → ¬IsLoop trie? i →
    ∀ e ∈ t.cases, ∀ next ∈ e.2, Further owner rank i next ∧ ¬IsLoop trie? next
  recursion (i : NodeId) (t : Trie) : trie? i = some t →
    ∀ next ∈ t.recursion, Further owner rank i next ∧ IsLoop trie? next
  tails (i tails : NodeId) : trie? i = some (.loop tails i) →
    Further owner rank i tails ∧ ¬IsLoop trie? tails

end Going

namespace Descends

variable {trie? : NodeId → Option Trie} {owner : NodeId → NodeId} {rank : NodeId → Nat}
  {i j : NodeId}

theorem leads (h : Descends trie? owner rank) (hl : Leads trie? i j) :
    Further owner rank i j ∨ i = j ∧ IsLoop trie? i := by
  cases hl with
  | @behind t e ht he hn =>
    by_cases hloop : IsLoop trie? i
    · obtain ⟨tails, hloop'⟩ := hloop
      obtain rfl := Option.some.inj (ht.symm.trans hloop')
      cases List.mem_singleton.1 he
      exact .inr ⟨Option.some.inj hn, tails, hloop'⟩
    · exact .inl (h.behind i t ht hloop e he j hn).1
  | recursion ht hn => exact .inl (h.recursion i _ ht j hn).1
  | tails ht => exact .inl (h.tails i j ht).1

/-- However one goes on, one comes to no node twice. -/
theorem nodup_of_isChain (h : Descends trie? owner rank) {path : List NodeId}
    (hp : path.IsChain (fun i j => Leads trie? i j ∧ i ≠ j)) : path.Nodup := by
  have hranks : path.IsChain (fun i j => rank j < rank i) := by
    refine hp.imp (fun i j ⟨hl, hne⟩ => ?_)
    rcases h.leads hl with hf | ⟨heq, -⟩
    · exact hf.2
    · exact absurd heq hne
  have : IsTrans NodeId (fun i j => rank j < rank i) := ⟨fun _ _ _ h h' => Nat.lt_trans h' h⟩
  refine hranks.pairwise.imp (fun hlt heq => ?_)
  exact Nat.lt_irrefl _ (heq ▸ hlt)

end Descends

namespace Draft

variable {d d' : Draft} {id top i j : Nat}

/-! ### All mediums -/

namespace Raises

/-- One goes on as before, or to what is new. -/
theorem leads_cases (h : Raises id top d d') (hl : Leads d'.trie? i j) :
    Leads d.trie? i j ∨ d.nodes.size ≤ j ∧ j < d'.nodes.size := by
  have hle := h.le
  have htop := h.top_le
  cases hl with
  | behind ht he hn =>
    have hi : i < d'.nodes.size := lt_size_of_trie? ht
    rcases h.trie?_cases ht with ⟨-, -, ht⟩ | ⟨-, hbehind, -⟩ | ⟨-, -, hw⟩ |
      ⟨rfl, -, tails, -, -, rfl⟩
    · exact .inl (.behind ht he hn)
    · have := hbehind _ he j hn
      exact .inr ⟨this.1, by omega⟩
    · have := hw.behind _ he j hn
      exact .inr ⟨this.1, by omega⟩
    · cases List.mem_singleton.1 he
      obtain rfl := Option.some.inj hn
      exact .inr ⟨hle, hi⟩
  | recursion ht hn =>
    rcases h.trie?_cases ht with ⟨-, -, ht⟩ | ⟨-, -, hrecursion⟩ | ⟨-, -, hw⟩ |
      ⟨rfl, -, tails, -, -, rfl⟩
    · exact .inl (.recursion ht hn)
    · obtain ⟨rfl, hlt⟩ := hrecursion j hn
      exact .inr ⟨hle, hlt⟩
    · rw [hw.recursion] at hn
      exact nomatch hn
    · exact nomatch hn
  | tails ht =>
    rcases h.trie?_cases ht with ⟨-, -, ht⟩ | ⟨rfl, hbehind, -⟩ | ⟨-, -, hw⟩ |
      ⟨rfl, hlt, tails, hlo, hhi, heq⟩
    · exact .inl (.tails ht)
    · have := hbehind _ List.mem_cons_self i rfl
      have := h.lt
      omega
    · have := hw.behind _ List.mem_cons_self i rfl
      omega
    · cases heq
      exact .inr ⟨hlo, by omega⟩

theorem not_isLoop_of_lt (h : Raises id top d d') (hle : d.nodes.size ≤ i)
    (hlt : i < top) : ¬IsLoop d'.trie? i := by
  rintro ⟨tails, hloop⟩
  obtain ⟨t, ht, hw⟩ := h.new i hle hlt
  obtain rfl := Option.some.inj (ht.symm.trans hloop)
  exact Nat.lt_irrefl i (hw.behind _ List.mem_cons_self i rfl).2

theorem not_isLoop_root (h : Raises id top d d') : ¬IsLoop d'.trie? id := by
  rintro ⟨tails, hloop⟩
  obtain ⟨t, ht, hbehind, -⟩ := h.root
  obtain rfl := Option.some.inj (ht.symm.trans hloop)
  have hself := hbehind _ List.mem_cons_self id rfl
  exact Nat.lt_irrefl _ (Nat.lt_of_lt_of_le h.lt hself.1)

theorem isLoop_top (h : Raises id top d d') (hlt : top < d'.nodes.size) : IsLoop d'.trie? top := by
  rcases h.loop with hsize | ⟨-, tails, -, -, hloop⟩
  · omega
  · exact ⟨tails, hloop⟩

theorem isLoop_iff (h : Raises id top d d') (hlt : i < d.nodes.size) (hne : i ≠ id) :
    IsLoop d'.trie? i ↔ IsLoop d.trie? i := by
  rw [IsLoop, IsLoop, h.old i hlt hne]

end Raises

/-- Before factorization one goes on nowhere. -/
theorem Unfactorized.not_leads (hu : d.Unfactorized) : ¬Leads d.trie? i j := by
  intro hl
  cases hl with
  | behind ht he hn =>
    rw [hu.trie_empty i _ ht] at he
    exact absurd he List.not_mem_nil
  | recursion ht hn =>
    rw [hu.trie_empty i _ ht] at hn
    exact nomatch hn
  | tails ht => exact nomatch congrArg Trie.cases (hu.trie_empty i _ ht)

/-- The rank of a node, if those below `n` are no factors: a factor ranks by its number. -/
def depthRank (n : Nat) (d : Draft) (i : Nat) : Nat := if i < n then d.nodes.size else i

/-- Every factor, from `n` on, has an owner below `n`, and one goes on further down only. -/
structure Rooted (n : Nat) (owner : NodeId → NodeId) (d : Draft) : Prop where
  le : n ≤ d.nodes.size
  owner_eq (i : Nat) : i < n → owner i = i
  descends : Descends d.trie? owner (d.depthRank n)
  leads_le (i j : Nat) : Leads d.trie? i j → n ≤ j ∧ j < d.nodes.size

/-- The owners when a medium has been raised: it owns what is new. -/
def raised (d : Draft) (id : Nat) (owner : NodeId → NodeId) (i : Nat) : NodeId :=
  if i < d.nodes.size then owner i else id

namespace Rooted

variable {n : Nat} {owner : NodeId → NodeId}

theorem of_unfactorized (hu : d.Unfactorized) : d.Rooted d.nodes.size (fun i => i) where
  le := Nat.le_refl _
  owner_eq _ _ := rfl
  descends := {
    behind := fun _ _ ht _ _ he _ hn => absurd (.behind ht he hn) hu.not_leads
    recursion := fun _ _ ht _ hn => absurd (.recursion ht hn) hu.not_leads
    tails := fun _ _ ht => absurd (.tails ht) hu.not_leads }
  leads_le _ _ hl := absurd hl hu.not_leads

theorem further_of_old (h : d.Rooted n owner) (hsize : d.nodes.size ≤ d'.nodes.size)
    (hi : i < d.nodes.size) (hl : Leads d.trie? i j)
    (hf : Further owner (d.depthRank n) i j) :
    Further (raised d id owner) (d'.depthRank n) i j := by
  obtain ⟨howner, hrank⟩ := hf
  obtain ⟨hlo, hhi⟩ := h.leads_le i j hl
  refine ⟨?_, ?_⟩
  · rw [raised, raised, if_pos hhi, if_pos hi, howner]
  · simp only [depthRank, if_neg (Nat.not_lt.2 hlo)] at hrank ⊢
    split <;> split at hrank <;> omega

theorem further_of_new (h : d.Rooted n owner) (hi : d.nodes.size ≤ i) (hij : j < i)
    (hj : d.nodes.size ≤ j) : Further (raised d id owner) (d'.depthRank n) i j := by
  have hle := h.le
  refine ⟨?_, ?_⟩
  · rw [raised, raised, if_neg (Nat.not_lt.2 hi), if_neg (Nat.not_lt.2 hj)]
  · rw [depthRank, depthRank, if_neg (by omega), if_neg (by omega)]
    exact hij

theorem further_of_root (h : d.Rooted n owner) (hid : id < n) (hj : d.nodes.size ≤ j)
    (hlt : j < d'.nodes.size) : Further (raised d id owner) (d'.depthRank n) id j := by
  have hle := h.le
  refine ⟨?_, ?_⟩
  · rw [raised, raised, if_neg (Nat.not_lt.2 hj), if_pos (by omega), h.owner_eq id hid]
  · rw [depthRank, depthRank, if_neg (by omega), if_pos hid]
    exact hlt

theorem raise (h : d.Rooted n owner) (hid : id < n) (hr : Raises id top d d') :
    d'.Rooted n (raised d id owner) := by
  have hle := h.le
  have hbase := hr.le
  have htop := hr.top_le
  have hkept {i j : Nat} (hl : Leads d.trie? i j) :
      IsLoop d'.trie? j ↔ IsLoop d.trie? j := by
    obtain ⟨hlo, hhi⟩ := h.leads_le i j hl
    exact hr.isLoop_iff hhi (by omega)
  refine ⟨by omega, fun i hi => ?_, ⟨fun i t ht hnot e he next hn => ?_, fun i t ht next hn => ?_,
    fun i tails ht => ?_⟩, fun i j hl => ?_⟩
  · rw [raised, if_pos (by omega), h.owner_eq i hi]
  · rcases hr.trie?_cases ht with ⟨hi, hne, ht⟩ | ⟨rfl, hbehind, -⟩ | ⟨hi, hlt, hw⟩ |
      ⟨rfl, -, tails, -, -, rfl⟩
    · have hl : Leads d.trie? i next := .behind ht he hn
      obtain ⟨hf, hnext⟩ := h.descends.behind i t ht (by rwa [← hr.isLoop_iff hi hne]) e he next hn
      exact ⟨h.further_of_old (by omega) hi hl hf, by rwa [hkept hl]⟩
    · obtain ⟨hlo, hhi⟩ := hbehind e he next hn
      exact ⟨h.further_of_root hid hlo (by omega), hr.not_isLoop_of_lt hlo hhi⟩
    · obtain ⟨hlo, hhi⟩ := hw.behind e he next hn
      exact ⟨h.further_of_new hi hhi hlo, hr.not_isLoop_of_lt hlo (by omega)⟩
    · exact absurd ⟨tails, ht⟩ hnot
  · rcases hr.trie?_cases ht with ⟨hi, -, ht⟩ | ⟨rfl, -, hrecursion⟩ | ⟨-, -, hw⟩ |
      ⟨rfl, -, tails, -, -, rfl⟩
    · have hl : Leads d.trie? i next := .recursion ht hn
      obtain ⟨hf, hnext⟩ := h.descends.recursion i t ht next hn
      exact ⟨h.further_of_old (by omega) hi hl hf, by rwa [hkept hl]⟩
    · obtain ⟨rfl, hlt⟩ := hrecursion next hn
      exact ⟨h.further_of_root hid hbase hlt, hr.isLoop_top hlt⟩
    · rw [hw.recursion] at hn
      exact nomatch hn
    · exact nomatch hn
  · rcases hr.trie?_cases ht with ⟨hi, -, ht⟩ | ⟨rfl, -, -⟩ | ⟨hi, hlt, -⟩ |
      ⟨rfl, -, tails', hlo, hhi, heq⟩
    · have hl : Leads d.trie? i tails := .tails ht
      obtain ⟨hf, hnext⟩ := h.descends.tails i tails ht
      exact ⟨h.further_of_old (by omega) hi hl hf, by rwa [hkept hl]⟩
    · exact absurd ⟨tails, ht⟩ hr.not_isLoop_root
    · exact absurd ⟨tails, ht⟩ (hr.not_isLoop_of_lt hi hlt)
    · cases heq
      exact ⟨h.further_of_new hbase hhi hlo, hr.not_isLoop_of_lt hlo hhi⟩
  · rcases hr.leads_cases hl with hl | ⟨hlo, hhi⟩
    · obtain ⟨hlo, hhi⟩ := h.leads_le i j hl
      omega
    · omega

end Rooted

theorem Layered.lt_of_isMedium {n : Nat} (h : d.Layered n) (hm : (d.shape? id).any (·.isMedium)) :
    id < n := by
  obtain ⟨m, hs, hm⟩ := (Option.any_eq_true _ _).1 hm
  refine Nat.lt_of_not_le (fun hle => ?_)
  have hfactor := (h.isFactor_iff id m hs).2 hle
  obtain ⟨_, _, _, kind⟩ := m
  cases kind with
  | factor t => exact absurd hm Bool.false_ne_true
  | _ => exact absurd hfactor Bool.false_ne_true

/-- The factors of a factorized draft have owners, and the other nodes are their own. -/
theorem exists_rooted (hd : d.Sound) (hu : d.Unfactorized) {options : GrammarOptions}
    (h : d.factorizeAll options = .ok d') : ∃ n owner, d'.Layered n ∧ d'.Rooted n owner := by
  obtain ⟨d₁, hd₁, hsound₁, hall⟩ := exists_factorizations hd h
  have hu₁ : d₁.Unfactorized := by
    rcases hd₁ with rfl | hr
    · exact hu
    · exact hu.of_removals hr
  refine ⟨d₁.nodes.size, ?_⟩
  clear h
  induction hall with
  | refl => exact ⟨_, .of_unfactorized hsound₁ hu₁, .of_unfactorized hu₁⟩
  | tail _ hstep ih =>
    obtain ⟨owner, hlayered, hrooted⟩ := ih
    obtain ⟨id, top, hm, hraises⟩ := hstep.raises
    exact ⟨_, hlayered.step hstep.step, hrooted.raise (hlayered.lt_of_isMedium hm) hraises⟩

end Draft

/-! ### Publication -/

namespace Publishes

variable {d : Draft} {g : Grammar} {f : NodeId → NodeId}

theorem isLoop_iff (h : Publishes d g f) (hd : d.Sound) {i : NodeId} (hi : i < d.nodes.size) :
    IsLoop g.trie? (f i) ↔ IsLoop d.trie? i := by
  rw [IsLoop, IsLoop, h.trie? hi]
  constructor
  · rintro ⟨tails, hloop⟩
    obtain ⟨t, ht, heq⟩ := Option.map_eq_some_iff.1 hloop
    obtain ⟨cases, interruptable, recursion⟩ := t
    obtain ⟨hcases, hends, hrecursion⟩ := Trie.mk.inj heq
    obtain ⟨⟨head, next⟩, rfl, he⟩ := List.map_eq_singleton_iff.1 hcases
    obtain ⟨rfl, hnext⟩ := Prod.mk.inj he
    obtain ⟨k, rfl, hk⟩ := Option.map_eq_some_iff.1 hnext
    obtain ⟨t', ht'⟩ := Option.isSome_iff_exists.1
      ((hd.fits i _ ht).continuation _ List.mem_cons_self k rfl)
    obtain rfl := h.inj k i (Draft.lt_size_of_trie? ht') hi hk
    obtain rfl := Option.map_eq_none_iff.1 hrecursion
    obtain rfl : interruptable = true := hends
    exact ⟨head, ht⟩
  · rintro ⟨tails, hloop⟩
    exact ⟨f tails, by rw [hloop]; rfl⟩

/-- Under their published numbers the nodes keep owners and ranks. -/
theorem descends (h : Publishes d g f) (hd : d.Sound) {owner back : NodeId → NodeId}
    {rank : NodeId → Nat} (hr : Descends d.trie? owner rank)
    (hback : ∀ i < d.nodes.size, back (f i) = i) :
    Descends g.trie? (fun j => f (owner (back j))) (fun j => rank (back j)) := by
  have hlt {i : NodeId} (hi : (d.trie? i).isSome) : i < d.nodes.size := by
    obtain ⟨t, ht⟩ := Option.isSome_iff_exists.1 hi
    exact Draft.lt_size_of_trie? ht
  have hfurther {i j : NodeId} (hi : i < d.nodes.size) (hj : j < d.nodes.size)
      (hf : Further owner rank i j) :
      Further (fun j => f (owner (back j))) (fun j => rank (back j)) (f i) (f j) := by
    simp only [Further, hback i hi, hback j hj]
    exact ⟨congrArg f hf.1, hf.2⟩
  refine ⟨fun j t ht hnot e he next hn => ?_, fun j t ht next hn => ?_, fun j tails ht => ?_⟩
  · obtain ⟨i, hi, rfl, s, hs, rfl⟩ := h.exists_of_trie? ht
    obtain ⟨e', he', rfl⟩ := List.mem_map.1 he
    obtain ⟨next', hn', rfl⟩ := Option.map_eq_some_iff.1 hn
    have hnext := hlt ((hd.fits i s hs).continuation e' he' next' hn')
    obtain ⟨hf, hplain⟩ := hr.behind i s hs (by rwa [← h.isLoop_iff hd hi]) e' he' next' hn'
    exact ⟨hfurther hi hnext hf, by rwa [h.isLoop_iff hd hnext]⟩
  · obtain ⟨i, hi, rfl, s, hs, rfl⟩ := h.exists_of_trie? ht
    obtain ⟨next', hn', rfl⟩ := Option.map_eq_some_iff.1 hn
    have hnext := hlt ((hd.fits i s hs).recursion next' hn')
    obtain ⟨hf, hloop⟩ := hr.recursion i s hs next' hn'
    exact ⟨hfurther hi hnext hf, by rwa [h.isLoop_iff hd hnext]⟩
  · obtain ⟨i, hi, rfl, -⟩ := h.exists_of_trie? ht
    obtain ⟨tails', ht'⟩ := (h.isLoop_iff hd hi).1 ⟨tails, ht⟩
    have htails : f tails' = tails := by
      rw [h.trie? hi, ht', Option.map_some, Option.some.injEq] at ht
      exact (Prod.mk.inj (List.cons.inj (congrArg Trie.cases ht)).1).1
    subst htails
    have hnext := (hd.fits i _ ht').heads_lt _ List.mem_cons_self
    obtain ⟨hf, hplain⟩ := hr.tails i tails' ht'
    exact ⟨hfurther hi hnext hf, by rwa [h.isLoop_iff hd hnext]⟩

end Publishes

/-- The number that a published node had in the draft. -/
def Draft.oldId (d : Draft) (j : NodeId) : NodeId := ((d.publishedOrder[j]?).map (·.id)).getD 0

theorem Draft.oldId_newId {d : Draft} (hd : d.Sound) {i : NodeId} (hi : i < d.nodes.size) :
    d.oldId (d.newId i) = i := by
  have hn := Array.getElem?_eq_getElem hi
  rw [oldId, getElem?_publishedOrder_newId hd.id_eq hn, Option.map_some, Option.getD_some,
    id_of_getElem? hd.id_eq hn]

/-- In a well-formed grammar a loop is a factor. -/
theorem Grammar.WellFormed.isFactor_of_isLoop {g : Grammar} (h : g.WellFormed) {i : NodeId}
    (hl : IsLoop g.trie? i) : g.isFactor i := by
  obtain ⟨tails, ht⟩ := hl
  exact h.continuation i _ ht _ List.mem_cons_self i rfl

theorem not_isFactor_of_isMedium {g : Grammar} {m : NodeId} (hm : (g.node? m).any (·.isMedium)) :
    ¬g.isFactor m := by
  obtain ⟨n, hn, hm⟩ := (Option.any_eq_true _ _).1 hm
  rw [Grammar.isFactor, hn, Option.any_some]
  obtain ⟨_, _, _, kind⟩ := n
  cases kind with
  | medium data => exact Bool.false_ne_true
  | _ => exact absurd hm Bool.false_ne_true

/-- A grammar in which one goes on further down only. Mediums are their own owners, and no loops. -/
structure Grammar.Owned (g : Grammar) (owner : NodeId → NodeId) (rank : NodeId → Nat) : Prop where
  descends : Descends g.trie? owner rank
  owner_eq (m : NodeId) : (g.node? m).any (·.isMedium) → owner m = m
  not_isLoop (m : NodeId) : (g.node? m).any (·.isMedium) → ¬IsLoop g.trie? m

theorem exists_owned_of_compile {description : GrammarDescription} {options : GrammarOptions}
    {g : Grammar} (h : Grammar.compile description options = .ok g) :
    ∃ owner rank, g.Owned owner rank := by
  obtain ⟨start, entered, classed, factorized, hc⟩ := compiled_of_compile h
  obtain ⟨n, owner, hl, hr⟩ :=
    Draft.exists_rooted hc.proper.sound hc.proper.unfactorized hc.factorize
  have hsound := hc.sound.1
  refine ⟨_, _, hc.publish.descends hsound hr.descends (fun i hi => Draft.oldId_newId hsound hi),
    fun m hm => ?_, fun m hm hloop => ?_⟩
  · obtain ⟨node, hn, -⟩ := (Option.any_eq_true _ _).1 hm
    obtain ⟨i, hi, rfl⟩ := hc.publish.onto m node hn
    rw [hc.publish.isMedium hi] at hm
    rw [Draft.oldId_newId hsound hi, hr.owner_eq i (hl.lt_of_isMedium hm)]
  · exact not_isFactor_of_isMedium hm ((wellFormed_of_compile h).isFactor_of_isLoop hloop)

/-! ### What is still to come -/

section ToCome

variable (g : Grammar) (owner : NodeId → NodeId) (rank : NodeId → Nat) (visited : NodeId → Bool)

instance (i j : NodeId) : Decidable (Further owner rank i j) := inferInstanceAs (Decidable (_ ∧ _))

/-- The nodes that one can still come to, from a node whose owner was visited. -/
def Grammar.ahead (i : NodeId) : Finset Nat :=
  (Finset.range g.nodes.size).filter
    (fun j => Further owner rank i j ∨ visited (owner j) = false)

end ToCome

namespace Grammar

variable {g : Grammar} {owner : NodeId → NodeId} {rank : NodeId → Nat}
  {visited visited' : NodeId → Bool} {i j : NodeId}

theorem mem_ahead : j ∈ g.ahead owner rank visited i ↔
    j < g.nodes.size ∧ (Further owner rank i j ∨ visited (owner j) = false) := by
  rw [ahead, Finset.mem_filter, Finset.mem_range]

/-- A node is not ahead of itself. -/
theorem not_mem_ahead_self (hv : visited (owner i)) : i ∉ g.ahead owner rank visited i := by
  rw [mem_ahead]
  rintro ⟨-, ⟨-, hlt⟩ | hnot⟩
  · exact Nat.lt_irrefl _ hlt
  · exact absurd hv (Bool.eq_false_iff.1 hnot)

theorem card_ahead_lt_size (hi : i < g.nodes.size) (hv : visited (owner i)) :
    (g.ahead owner rank visited i).card < g.nodes.size := by
  have hsub : g.ahead owner rank visited i ⊂ Finset.range g.nodes.size :=
    (Finset.ssubset_iff_of_subset (Finset.filter_subset _ _)).2
      ⟨i, Finset.mem_range.2 hi, not_mem_ahead_self hv⟩
  exact (Finset.card_lt_card hsub).trans_eq (Finset.card_range _)

/-- Less is ahead further down. -/
theorem card_ahead_lt (hf : Further owner rank i j) (hj : j < g.nodes.size)
    (hv : visited (owner i)) (hmore : ∀ m, visited m → visited' m) :
    (g.ahead owner rank visited' j).card < (g.ahead owner rank visited i).card := by
  refine Finset.card_lt_card ((Finset.ssubset_iff_of_subset (fun k hk => ?_)).2
    ⟨j, mem_ahead.2 ⟨hj, .inl hf⟩, not_mem_ahead_self (hmore _ (hf.1 ▸ hv))⟩)
  rw [mem_ahead] at hk ⊢
  refine ⟨hk.1, hk.2.imp (fun hfurther => ?_) (fun hnot => ?_)⟩
  · exact ⟨hfurther.1.trans hf.1, Nat.lt_trans hfurther.2 hf.2⟩
  · exact Bool.eq_false_iff.2 (fun hk => Bool.eq_false_iff.1 hnot (hmore _ hk))

/-- Less is ahead in a medium that was not visited before. -/
theorem card_ahead_lt_of_enter {m : NodeId} (hm : m < g.nodes.size) (howner : owner m = m)
    (hnot : visited m = false) (hmore : ∀ k, visited k → visited' k) (hv : visited' m) :
    (g.ahead owner rank visited' m).card < (g.ahead owner rank visited i).card := by
  refine Finset.card_lt_card ((Finset.ssubset_iff_of_subset (fun k hk => ?_)).2
    ⟨m, mem_ahead.2 ⟨hm, .inr (howner.symm ▸ hnot)⟩, not_mem_ahead_self (howner.symm ▸ hv)⟩)
  rw [mem_ahead] at hk ⊢
  refine ⟨hk.1, .inr ?_⟩
  rcases hk.2 with hfurther | hunseen
  · rw [hfurther.1, howner, hnot]
  · exact Bool.eq_false_iff.2 (fun hk => Bool.eq_false_iff.1 hunseen (hmore _ hk))

end Grammar

end Syntagma
