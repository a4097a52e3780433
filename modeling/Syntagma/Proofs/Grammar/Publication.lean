import Mathlib.Data.List.Nodup
import Syntagma.Proofs.Grammar.Stages

/-! Publication puts the nodes into another order and renumbers them. No node is lost or doubled,
so the published grammar is the draft under other numbers. -/

namespace Syntagma

namespace Node

variable (f : NodeId → NodeId) (n : Node)

theorem trie?_mapIds : (n.mapIds f).trie? = n.trie?.map (Trie.mapIds f) := by
  obtain ⟨id, name, execClass, kind⟩ := n
  cases kind <;> rfl

theorem isTokenKey_mapIds : (n.mapIds f).isTokenKey = n.isTokenKey := by
  obtain ⟨id, name, execClass, kind⟩ := n
  cases kind <;> rfl

theorem symbol?_mapIds : (n.mapIds f).symbol? = n.symbol? := by
  obtain ⟨id, name, execClass, kind⟩ := n
  cases kind <;> rfl

end Node

/-- The grammar has the nodes of the draft and no others, renumbered. -/
structure Publishes (d : Draft) (g : Grammar) (f : NodeId → NodeId) : Prop where
  inj (i j : NodeId) : i < d.nodes.size → j < d.nodes.size → f i = f j → i = j
  node (i : NodeId) (n : Node) : d.nodes[i]? = some n → g.node? (f i) = some (n.mapIds f)
  onto (j : NodeId) (n : Node) : g.node? j = some n → ∃ i < d.nodes.size, f i = j

namespace Draft

variable {d : Draft}

theorem rank_lt (n : Node) : rank n < 6 := by
  unfold rank
  split
  · split <;> decide
  · decide
  · split
    · decide
    · split <;> decide
  · decide

theorem mem_publishedOrder {n : Node} : n ∈ d.publishedOrder ↔ n ∈ d.nodes.toList := by
  simp only [publishedOrder, List.mem_flatMap, List.mem_range, List.mem_filter, beq_iff_eq]
  refine ⟨?_, fun hn => ⟨rank n, rank_lt n, hn, rfl⟩⟩
  rintro ⟨_, -, hn, -⟩
  exact hn

section Numbered

variable (hd : ∀ id n, d.shape? id = some n → n.id = id)

include hd

theorem id_of_getElem? {i : NodeId} {n : Node} (h : d.nodes[i]? = some n) : n.id = i := by
  have hs : d.shape? i = some n.shape := by rw [shape?, h, Option.map_some]
  exact (Node.shape_id n).symm.trans (hd i _ hs)

theorem getElem?_id_of_mem {n : Node} (h : n ∈ d.nodes.toList) : d.nodes[n.id]? = some n := by
  obtain ⟨i, hi⟩ := List.mem_iff_getElem?.1 h
  rw [Array.getElem?_toList] at hi
  rw [id_of_getElem? hd hi, hi]

theorem nodup_nodes : d.nodes.toList.Nodup := by
  refine List.nodup_iff_injective_getElem.2 (fun i j hij => Fin.ext ?_)
  have hi := id_of_getElem? hd (Array.getElem?_toList ▸ List.getElem?_eq_getElem i.isLt)
  have hj := id_of_getElem? hd (Array.getElem?_toList ▸ List.getElem?_eq_getElem j.isLt)
  exact hi.symm.trans ((congrArg Node.id hij).trans hj)

theorem nodup_publishedOrder : (d.publishedOrder.map (·.id)).Nodup := by
  refine List.Nodup.map_on (fun n hn m hm h => ?_) ?_
  · have hn' := getElem?_id_of_mem hd (mem_publishedOrder.1 hn)
    have hm' := getElem?_id_of_mem hd (mem_publishedOrder.1 hm)
    rw [h, hm'] at hn'
    exact (Option.some.inj hn').symm
  · refine List.nodup_flatMap.2 ⟨fun r _ => (nodup_nodes hd).filter _, ?_⟩
    refine List.nodup_range.imp_of_mem (fun {r r'} _ _ hne n hn hn' => hne ?_)
    have hr := (List.mem_filter.1 hn).2
    have hr' := (List.mem_filter.1 hn').2
    exact (beq_iff_eq.1 hr).symm.trans (beq_iff_eq.1 hr')

end Numbered

/-! ### Numbers -/

theorem getElem?_foldl_set!_of_ne {i : NodeId} (l : List (Node × Nat)) (m : Array NodeId)
    (h : ∀ e ∈ l, e.1.id ≠ i) : (l.foldl (fun m e => m.set! e.1.id e.2) m)[i]? = m[i]? := by
  induction l generalizing m with
  | nil => rfl
  | cons e l ih =>
    rw [List.foldl_cons, ih _ (fun x hx => h x (List.mem_cons_of_mem e hx)),
      Array.set!_eq_setIfInBounds, Array.getElem?_setIfInBounds_ne (h e List.mem_cons_self)]

/-- Each number is set once, to the place of its node. -/
theorem getElem?_foldl_set! (l : List Node) (k : Nat) (m : Array NodeId) (hl : (l.map (·.id)).Nodup)
    {j : Nat} {n : Node} (hn : l[j]? = some n) (hlt : n.id < m.size) :
    ((l.zipIdx k).foldl (fun m e => m.set! e.1.id e.2) m)[n.id]? = some (k + j) := by
  induction l generalizing k m j with
  | nil => exact nomatch hn
  | cons first l ih =>
    obtain ⟨hfirst, hl⟩ := List.nodup_cons.1 hl
    rw [List.zipIdx_cons, List.foldl_cons]
    cases j with
    | zero =>
      cases hn
      rw [getElem?_foldl_set!_of_ne]
      · rw [Array.set!_eq_setIfInBounds, Array.getElem?_setIfInBounds_self_of_lt hlt, Nat.add_zero]
      · rintro ⟨e, i⟩ he heq
        exact hfirst (List.mem_map.2 ⟨e, List.fst_mem_of_mem_zipIdx he, heq⟩)
    | succ j =>
      rw [ih (k + 1) _ hl hn (by rwa [Array.size_set!])]
      congr 1
      omega

/-- The published number of a node. -/
def newId (d : Draft) (id : NodeId) : NodeId := (d.renumbering[id]?).getD 0

theorem getElem?_publishedOrder_newId (hd : ∀ id n, d.shape? id = some n → n.id = id)
    {i : NodeId} {n : Node} (h : d.nodes[i]? = some n) :
    d.publishedOrder[d.newId i]? = some n := by
  obtain ⟨j, hj⟩ := List.mem_iff_getElem?.1
    (mem_publishedOrder.2 (List.mem_iff_getElem?.2 ⟨i, Array.getElem?_toList ▸ h⟩))
  have hlt : n.id < (Array.replicate d.nodes.size 0).size := by
    rw [Array.size_replicate, id_of_getElem? hd h]
    exact (Array.getElem?_eq_some_iff.1 h).1
  have hset := getElem?_foldl_set! d.publishedOrder 0 _ (nodup_publishedOrder hd) hj hlt
  rw [Nat.zero_add, id_of_getElem? hd h] at hset
  have hnew : d.newId i = j := by
    rw [newId, renumbering, hset, Option.getD_some]
  rw [hnew, hj]

theorem node?_publish (axiomId : NodeId) (classTable : ClassTable) (unclassified : List String)
    (hasLeftRecursion : Bool) (j : NodeId) :
    (d.publish axiomId classTable unclassified hasLeftRecursion).node? j =
      (d.publishedOrder[j]?).map (·.mapIds d.newId) := by
  simp [Grammar.node?, publish, Grammar.ofNodes]
  rfl

theorem publishes_publish (hd : ∀ id n, d.shape? id = some n → n.id = id) (axiomId : NodeId)
    (classTable : ClassTable) (unclassified : List String) (hasLeftRecursion : Bool) :
    Publishes d (d.publish axiomId classTable unclassified hasLeftRecursion) d.newId := by
  have hnode := node?_publish (d := d) axiomId classTable unclassified hasLeftRecursion
  refine ⟨fun i j hi hj h => ?_, fun i n hn => ?_, fun j n hn => ?_⟩
  · have hi' := getElem?_publishedOrder_newId hd (Array.getElem?_eq_getElem hi)
    have hj' := getElem?_publishedOrder_newId hd (Array.getElem?_eq_getElem hj)
    rw [h, hj', Option.some.injEq] at hi'
    rw [← id_of_getElem? hd (Array.getElem?_eq_getElem hi),
      ← id_of_getElem? hd (Array.getElem?_eq_getElem hj), hi']
  · rw [hnode, getElem?_publishedOrder_newId hd hn, Option.map_some]
  · rw [hnode] at hn
    obtain ⟨m, hm, -⟩ := Option.map_eq_some_iff.1 hn
    have hm' := getElem?_id_of_mem hd (mem_publishedOrder.1 (List.mem_of_getElem? hm))
    refine ⟨m.id, (Array.getElem?_eq_some_iff.1 hm').1, ?_⟩
    have hnew := getElem?_publishedOrder_newId hd hm'
    exact (List.getElem?_inj (List.getElem?_eq_some_iff.1 hnew).1
      ((nodup_publishedOrder hd).of_map _)).1 (hnew.trans hm.symm)

end Draft

/-! ### The published grammar -/

namespace Publishes

variable {d : Draft} {g : Grammar} {f : NodeId → NodeId}

theorem trie? (h : Publishes d g f) {i : NodeId} (hi : i < d.nodes.size) :
    g.trie? (f i) = (d.trie? i).map (Trie.mapIds f) := by
  have hn := Array.getElem?_eq_getElem hi
  rw [Grammar.trie?, h.node i _ hn, Option.bind_some, Node.trie?_mapIds, Draft.trie?, Draft.shape?,
    hn, Option.map_some, Option.bind_some, Node.trie?_shape]

theorem isTokenKey (h : Publishes d g f) {i : NodeId} (hi : i < d.nodes.size) :
    g.isTokenKey (f i) = d.isTokenKey i := by
  have hn := Array.getElem?_eq_getElem hi
  rw [Grammar.isTokenKey, h.node i _ hn, Option.any_some, Node.isTokenKey_mapIds, Draft.isTokenKey,
    Draft.shape?, hn, Option.map_some, Option.any_some, Node.isTokenKey_shape]

theorem exists_of_trie? (h : Publishes d g f) {j : NodeId} {trie : Trie}
    (ht : g.trie? j = some trie) :
    ∃ i < d.nodes.size, f i = j ∧ ∃ t, d.trie? i = some t ∧ trie = t.mapIds f := by
  obtain ⟨n, hn, -⟩ := Option.bind_eq_some_iff.1 ht
  obtain ⟨i, hi, rfl⟩ := h.onto j n hn
  rw [h.trie? hi] at ht
  obtain ⟨t, hdt, rfl⟩ := Option.map_eq_some_iff.1 ht
  exact ⟨i, hi, rfl, t, hdt, rfl⟩

end Publishes

/-- A grammar that can be walked from its axiom: whatever a trie refers to as a position has a trie
itself, and each head of a trie has one case. -/
structure Grammar.Linked (g : Grammar) : Prop where
  start : (g.trie? g.axiomId).isSome
  nodup (id : NodeId) (trie : Trie) : g.trie? id = some trie → (trie.cases.map (·.1)).Nodup
  continuation (id : NodeId) (trie : Trie) : g.trie? id = some trie →
    ∀ e ∈ trie.cases, ∀ next ∈ e.2, (g.trie? next).isSome
  recursion (id : NodeId) (trie : Trie) : g.trie? id = some trie →
    ∀ next ∈ trie.recursion, (g.trie? next).isSome

theorem Publishes.linked {d : Draft} {g : Grammar} {f : NodeId → NodeId} (h : Publishes d g f)
    (hd : d.Sound) {start : NodeId} (hs : (d.trie? start).isSome) (hg : g.axiomId = f start) :
    g.Linked := by
  have hsome {i : NodeId} (hi : (d.trie? i).isSome) : (g.trie? (f i)).isSome := by
    obtain ⟨t, ht⟩ := Option.isSome_iff_exists.1 hi
    rw [h.trie? (Draft.lt_size_of_trie? ht), ht]
    rfl
  refine ⟨hg ▸ hsome hs, fun id trie ht => ?_, fun id trie ht e he next hn => ?_,
    fun id trie ht next hn => ?_⟩
  · obtain ⟨i, hi, rfl, t, hdt, rfl⟩ := h.exists_of_trie? ht
    have hf := hd.fits i t hdt
    have hmap : (t.mapIds f).cases.map (·.1) = (t.cases.map (·.1)).map f := by
      simp [Trie.mapIds, Function.comp_def]
    rw [hmap]
    refine hf.nodup.map_on (fun a ha b hb => h.inj a b ?_ ?_)
    · obtain ⟨e, he, rfl⟩ := List.mem_map.1 ha
      exact hf.heads_lt e he
    · obtain ⟨e, he, rfl⟩ := List.mem_map.1 hb
      exact hf.heads_lt e he
  · obtain ⟨i, hi, rfl, t, hdt, rfl⟩ := h.exists_of_trie? ht
    obtain ⟨e', he', rfl⟩ := List.mem_map.1 he
    obtain ⟨next', hn', rfl⟩ := Option.map_eq_some_iff.1 hn
    exact hsome ((hd.fits i t hdt).continuation e' he' next' hn')
  · obtain ⟨i, hi, rfl, t, hdt, rfl⟩ := h.exists_of_trie? ht
    obtain ⟨next', hn', rfl⟩ := Option.map_eq_some_iff.1 hn
    exact hsome ((hd.fits i t hdt).recursion next' hn')

end Syntagma
