import Syntagma.Proofs.Analysis.KeptLanguage

/-! The published cases beside the tries. Factorization changes no cases, so the cases that a
compiled grammar shows are those that its tries were made for. With left recursion removed the trie
of a medium spells what is read for all of its cases. With left recursion kept it spells what is
read for those that do not start with the medium, and the loop behind it repeats what is read for
the tails of the others. -/

namespace Syntagma

namespace Grammar

/-- The alternatives of a medium, as they are published; none for any other node. -/
def casesOf (g : Grammar) (id : NodeId) : List (List NodeId) :=
  (((g.node? id).bind (·.medium?)).map (·.cases)).getD []

/-- What the trie of a node spells, and what the loop behind it repeats, by the published cases. -/
def Merges (g : Grammar) (id : NodeId) : Prop :=
  (∀ read, g.Spells id read ↔ Reads (g.casesOf id) read) ∨
    (∀ read, g.Spells id read ↔ Reads (baseOf id (g.casesOf id)) read) ∧
      ∀ tail, g.Repeats id tail ↔ Reads (behind id (g.casesOf id)) tail

end Grammar

namespace Publishes

variable {d : Draft} {g : Grammar} {f : NodeId → NodeId}

theorem casesOf (h : Publishes d g f) {i : NodeId} (hi : i < d.nodes.size) :
    g.casesOf (f i) = (d.casesOf i).map (·.map f) := by
  have hn := Array.getElem?_eq_getElem hi
  unfold Grammar.casesOf Draft.casesOf
  rw [h.node i _ hn, hn, Option.bind_some, Option.bind_some]
  obtain ⟨id, name, execClass, kind⟩ := d.nodes[i]
  cases kind <;> rfl

/-- A published medium is a medium of the draft. -/
theorem exists_of_medium (h : Publishes d g f) {id : NodeId} {n : Node} (hn : g.node? id = some n)
    (hm : n.isMedium) : ∃ i, f i = id ∧ (d.shape? i).any (·.isMedium) := by
  obtain ⟨i, hi, rfl⟩ := h.onto id n hn
  have hk := Array.getElem?_eq_getElem hi
  refine ⟨i, rfl, ?_⟩
  rw [h.node i _ hk] at hn
  obtain rfl := Option.some.inj hn
  rw [Draft.shape?, hk, Option.map_some, Option.any_some, Node.isMedium_shape]
  generalize d.nodes[i] = m at hm
  obtain ⟨id, name, execClass, kind⟩ := m
  cases kind with
  | medium data => rfl
  | _ => cases hm

end Publishes

/-- Every medium of a compiled grammar is merged from its published cases. -/
theorem merges_of_compile {description : GrammarDescription} {options : GrammarOptions}
    {g : Grammar} (h : Grammar.compile description options = .ok g) {id : NodeId} {n : Node}
    (hn : g.node? id = some n) (hm : n.isMedium) : g.Merges id := by
  obtain ⟨start, entered, classed, factorized, hc⟩ := compiled_of_compile h
  have hsound := hc.sound.1
  obtain ⟨i, rfl, hmedium⟩ := hc.publish.exists_of_medium hn hm
  have hlt := Draft.lt_size_of_isMedium hmedium
  have hdom := hsound.cases_lt i
  have hinj (x y : NodeId) (hx : x < factorized.nodes.size) (hy : y < factorized.nodes.size) :=
    hc.publish.inj x y hx hy
  rw [Grammar.Merges, hc.publish.casesOf hlt]
  cases ho : options.removeLeftRecursion with
  | true =>
    obtain ⟨d₁, hr⟩ := Draft.exists_realizes hc.proper.sound hc.proper.unfactorized ho hc.factorize
    refine .inl (fun read => ?_)
    rw [reads_map_iff hinj hdom, hc.publish.spells_iff hsound hlt, hr.cases i (hr.medium i hmedium)]
    simp only [hr.reads i _ (hr.medium i hmedium)]
  | false =>
    have hk := Draft.keeping_of_factorizeAll hc.proper.sound hc.proper.unfactorized ho hc.factorize
    have hi := hk.medium i hmedium
    refine .inr ⟨fun read => ?_, fun tail => ?_⟩
    · rw [baseOf_map hinj hlt hdom, hc.publish.spells_iff_reads hk hi, ← hk.cases i hi]
      exact (reads_map_iff hinj (fun other ho => hdom other (mem_baseOf.1 ho).1) read).symm
    · rw [behind_map hinj hlt hdom, hc.publish.repeats_iff_reads hk hi, ← hk.cases i hi]
      exact (reads_map_iff hinj (fun other ho x hx =>
        hdom _ (mem_behind.1 ho) x (List.mem_cons_of_mem i hx)) tail).symm

namespace Grammar.Merges

variable {g : Grammar} {id : NodeId} {trie : Trie} {case other : List NodeId}

/-- What the trie of a medium spells begins one of its cases. -/
theorem exists_of_spells (h : g.Merges id) (hs : g.Spells id case) :
    ∃ other ∈ g.casesOf id, case <+: other := by
  rcases h with h | ⟨h, -⟩
  · exact exists_prefix_of_reads ((h case).1 hs)
  · obtain ⟨other, ho, hp⟩ := exists_prefix_of_reads ((h case).1 hs)
    exact ⟨other, (mem_baseOf.1 ho).1, hp⟩

/-- What the trie of a medium spells is one of its cases, or one that is repeated, without its last
symbol. -/
theorem mem_or_repeated (h : g.Merges id) (hs : g.Spells id case) :
    case ∈ g.casesOf id ∨ ∃ a, Repeated (g.casesOf id) (case ++ [a]) := by
  rcases h with h | ⟨h, -⟩
  · exact ((h case).1 hs).2
  · refine ((h case).1 hs).2.imp (fun hc => (mem_baseOf.1 hc).1) ?_
    rintro ⟨a, hcount, hlast⟩
    have hbase := List.count_pos_iff.1 (Nat.lt_of_succ_lt hcount)
    have hhead := (mem_baseOf.1 hbase).2
    refine ⟨a, Nat.lt_of_lt_of_le hcount (List.filter_sublist.count_le _), ?_⟩
    rintro _ ho ⟨more, rfl⟩
    refine hlast _ (mem_baseOf.2 ⟨ho, fun hh => hhead ?_⟩) (List.prefix_append _ more)
    rw [← hh]
    cases case <;> rfl

/-- Where no loop stands behind the trie of a medium, it spells every case but that of the medium
alone, unless there are only that and empty cases. -/
theorem spells_of_mem (h : g.Merges id) (ht : g.trie? id = some trie) (hr : trie.recursion = none)
    (ho : other ∈ g.casesOf id) (hne : other ≠ []) (hself : other ≠ [id])
    (hc : case ∈ g.casesOf id) (hcase : case ≠ [id]) : trie.Spells g.trie? case := by
  have hspells : g.Spells id case := by
    rcases h with h | ⟨h, hloop⟩
    · exact (h case).2 ⟨⟨other, ho, hne⟩, .inl hc⟩
    · -- a case that starts with the medium would be gone through by a loop
      have hbase {case : List NodeId} (hc : case ∈ g.casesOf id) (hcase : case ≠ [id]) :
          case ∈ baseOf id (g.casesOf id) := by
        refine mem_baseOf.2 ⟨hc, fun hh => ?_⟩
        obtain ⟨tail, rfl⟩ := List.head?_eq_some_iff.1 hh
        refine Grammar.not_repeats ht hr ((hloop tail).2 ⟨⟨tail, mem_behind.2 hc, ?_⟩,
          .inl (mem_behind.2 hc)⟩)
        rintro rfl
        exact hcase rfl
      exact (h case).2 ⟨⟨other, hbase ho hself, hne⟩, .inl (hbase hc hcase)⟩
  obtain ⟨trie', ht', hs⟩ := hspells
  obtain rfl := Option.some.inj (ht.symm.trans ht')
  exact hs

end Grammar.Merges

end Syntagma
