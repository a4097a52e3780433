import Syntagma.Proofs.Analysis.LoopLanguage
import Syntagma.Proofs.Grammar.Factorization

/-! The language of tries without loops. What the tries spell from factor to factor can be read as
productions, and these derive what the tries do. -/

namespace Syntagma

namespace Grammar

variable {g : Grammar} {place : NodeId} {w : List NodeId}

/-- What the tries of a grammar spell, as productions. -/
def spelling (g : Grammar) : Productions NodeId where
  leaf id := g.isTokenKey id
  rule id case := ∃ trie, g.trie? id = some trie ∧ trie.Spells g.trie? case

/-- No trie repeats a left-recursive tail. -/
def Loopless (g : Grammar) : Prop := ∀ id trie, g.trie? id = some trie → trie.recursion = none

theorem Loopless.looped (hl : g.Loopless) : g.Looped := by
  intro place trie loop ht hr
  rw [hl place trie ht] at hr
  cases hr

theorem Loopless.not_repeats (hl : g.Loopless) {tail : List NodeId} : ¬g.Repeats place tail := by
  intro h
  obtain ⟨trie, ht, -⟩ := h.recursion_isSome
  exact Grammar.not_repeats ht (hl place trie ht) h

/-- Without loops, a case is one that a trie spells. -/
theorem Loopless.looping_eq (hl : g.Loopless) : g.looping = g.spelling := by
  have hrule (id : NodeId) (case : List NodeId) :
      g.looping.rule id case ↔ g.spelling.rule id case :=
    or_iff_left (fun ⟨_, _, hr⟩ => hl.not_repeats hr)
  exact congrArg (Productions.mk _)
    (funext (fun id => funext (fun case => propext (hrule id case))))

/-- Entering a node derives what the node opens in the productions that the tries spell. -/
theorem Loopless.derives_entered_iff (hl : g.Loopless) :
    g.Derives (g.entered place) w ↔ g.spelling.Opens place w := by
  rw [hl.looped.derives_entered_iff]
  constructor
  · intro h
    cases h with
    | first h =>
      obtain ⟨case, hs, hd⟩ := h
      exact ⟨case, hs, hl.looping_eq ▸ hd⟩
    | again _ hr => exact absurd hr hl.not_repeats
  · rintro ⟨case, hs, hd⟩
    exact .first ⟨case, hs, hl.looping_eq.symm ▸ hd⟩

end Grammar

/-! ### Publication -/

namespace Publishes

variable {d d₁ d' : Draft} {g : Grammar} {f : NodeId → NodeId}

theorem loopless (h : Publishes d g f) (hl : d.Loopless) : g.Loopless := by
  intro id trie ht
  obtain ⟨i, -, -, t, hdt, rfl⟩ := h.exists_of_trie? ht
  rw [Trie.mapIds, hl i t hdt]
  rfl

/-- Renumbered tries spell the renumbered sequences. -/
theorem spells_mapIds_iff (h : Publishes d g f) (hd : d.Sound) {trie : Trie} (ht : d.Fits trie)
    {read : List NodeId} : (trie.mapIds f).Spells g.trie? read ↔
      ∃ case, read = case.map f ∧ trie.Spells d.trie? case := by
  have hinner {head factor : NodeId} {trie : Trie} (ht : d.Fits trie)
      (hc : (head, some factor) ∈ trie.cases) : ∃ inner, d.trie? factor = some inner ∧
        g.trie? (f factor) = some (inner.mapIds f) := by
    obtain ⟨inner, hi⟩ := Option.isSome_iff_exists.1 (ht.continuation _ hc factor rfl)
    obtain ⟨n, hn, -⟩ := Option.bind_eq_some_iff.1 hi
    exact ⟨inner, hi, by rw [h.trie? (Draft.lt_size_of_shape? hn), hi, Option.map_some]⟩
  constructor
  · intro hs
    induction read generalizing trie with
    | nil => exact ⟨[], rfl, hs⟩
    | cons head' rest ih =>
      obtain ⟨next', hc', hs⟩ := hs
      obtain ⟨⟨head, next⟩, hc, he⟩ := List.mem_map.1 hc'
      obtain ⟨rfl, rfl⟩ := Prod.mk.inj he
      cases next with
      | none =>
        obtain rfl : rest = [] := hs
        exact ⟨[head], rfl, none, hc, rfl⟩
      | some factor =>
        obtain ⟨inner', hi', hs⟩ := hs
        obtain ⟨inner, hi, hg⟩ := hinner ht hc
        obtain rfl := Option.some.inj (hg.symm.trans hi')
        obtain ⟨case, rfl, hcase⟩ := ih (hd.fits factor inner hi) hs
        exact ⟨head :: case, rfl, some factor, hc, inner, hi, hcase⟩
  · rintro ⟨case, rfl, hs⟩
    induction case generalizing trie with
    | nil => exact hs
    | cons head rest ih =>
      obtain ⟨next, hc, hs⟩ := hs
      refine ⟨next.map f, List.mem_map.2 ⟨(head, next), hc, rfl⟩, ?_⟩
      cases next with
      | none =>
        obtain rfl : rest = [] := hs
        rfl
      | some factor =>
        obtain ⟨inner, hi, hs⟩ := hs
        obtain ⟨inner', hi', hg⟩ := hinner ht hc
        obtain rfl := Option.some.inj (hi'.symm.trans hi)
        exact ⟨_, hg, ih (hd.fits factor inner' hi) hs⟩

/-- What the trie of a published node spells is what its trie in the draft spells. -/
theorem spells_iff (h : Publishes d g f) (hd : d.Sound) {i : NodeId} (hi : i < d.nodes.size)
    {read : List NodeId} : g.Spells (f i) read ↔
      ∃ case, read = case.map f ∧ ∃ trie, d.trie? i = some trie ∧ trie.Spells d.trie? case := by
  constructor
  · rintro ⟨trie', ht', hs⟩
    rw [h.trie? hi] at ht'
    obtain ⟨trie, ht, rfl⟩ := Option.map_eq_some_iff.1 ht'
    obtain ⟨case, rfl, hcase⟩ := (h.spells_mapIds_iff hd (hd.fits i trie ht)).1 hs
    exact ⟨case, rfl, trie, ht, hcase⟩
  · rintro ⟨case, rfl, trie, ht, hs⟩
    refine ⟨trie.mapIds f, by rw [h.trie? hi, ht, Option.map_some], ?_⟩
    exact (h.spells_mapIds_iff hd (hd.fits i trie ht)).2 ⟨case, rfl, hs⟩

/-- The tries of the published grammar spell the nodes of the unrolled draft, renumbered. -/
theorem renames (h : Publishes d' g f) (hr : d.Realizes d₁ d') :
    Productions.Renames d₁.reading g.spelling (· < d₁.nodes.size) f := by
  have hlt {i : NodeId} (hi : i < d₁.nodes.size) : i < d'.nodes.size :=
    Nat.lt_of_lt_of_le hi hr.keeps'.size_le
  refine ⟨fun i j hi hj => h.inj i j (hlt hi) (hlt hj),
    fun i case _ => Draft.closed_reading hr.sound, fun i hi => ?_, fun i read hi => ?_⟩
  · simp only [Grammar.spelling, Draft.reading, h.isTokenKey (hlt hi), hr.keeps'.isTokenKey hi]
  · simp only [hr.spells i _ hi]
    exact h.spells_iff hr.sound' (hlt hi)

/-- What entering a node of the published grammar derives is what the draft enters there. -/
theorem derives_entered_iff (h : Publishes d' g f) (hr : d.Realizes d₁ d') {id : NodeId}
    (hid : id < d.nodes.size) {w : List NodeId} (hw : ∀ x ∈ w, x < d.nodes.size) :
    g.Derives (g.entered (f id)) (w.map f) ↔ d.reading.Enters id w := by
  have hlt {i : NodeId} (hi : i < d.nodes.size) : i < d₁.nodes.size :=
    Nat.lt_of_lt_of_le hi hr.keeps.size_le
  have hself (tail : List NodeId) : ¬d₁.reading.rule id (id :: tail) := fun hrule => by
    obtain ⟨other, ho, hp⟩ := exists_prefix_of_readsAs hrule
    obtain ⟨more, rfl⟩ := hp
    exact Draft.recursiveCases_eq_nil_iff.1 (hr.done id hid) _ ho rfl
  calc g.Derives (g.entered (f id)) (w.map f)
      ↔ g.spelling.Opens (f id) (w.map f) := (h.loopless hr.loopless).derives_entered_iff
    _ ↔ d₁.reading.Opens id w :=
        (h.renames hr).opens_iff (hlt hid) (fun x hx => hlt (hw x hx))
    _ ↔ d₁.reading.Enters id w := (Productions.enters_iff_of_not_recursive hself).symm
    _ ↔ d.reading.Enters id w := hr.enters id w hid

end Publishes

end Syntagma
