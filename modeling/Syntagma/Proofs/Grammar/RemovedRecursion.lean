import Syntagma.Proofs.Automaton.StrategyAgreement
import Syntagma.Proofs.Grammar.Compilation
import Syntagma.Proofs.Grammar.Unrolling

/-! Removal of left recursion keeps the language. The cases of a draft are productions over its
terminals and classes; for every node that a draft has, defined tokens included, removal for one
medium after another leaves what it derives as it was, whatever the cases are. -/

namespace Syntagma

/-- Whether a node stands for characters of its own, and not for its cases. -/
def Node.isLeaf (n : Node) : Bool := n.isTerminal || n.isClass

@[simp] theorem Node.isLeaf_bare (n : Node) : n.bare.isLeaf = n.isLeaf := by
  obtain ⟨id, name, execClass, kind⟩ := n
  cases kind <;> rfl

namespace Draft

/-- The cases of a draft as they stand. -/
def productions (d : Draft) : Productions NodeId where
  leaf id := (d.shape? id).any (·.isLeaf)
  rule id case := case ∈ d.casesOf id

instance (d : Draft) (id : NodeId) : Decidable (d.productions.leaf id) :=
  inferInstanceAs (Decidable ((d.shape? id).any (·.isLeaf) = true))

instance (d : Draft) (id : NodeId) (case : List NodeId) : Decidable (d.productions.rule id case) :=
  inferInstanceAs (Decidable (case ∈ d.casesOf id))

variable {d d₁ d' : Draft} {id : NodeId}

theorem Keeps.leaf_iff (h : d.Keeps d') (hid : id < d.nodes.size) :
    d'.productions.leaf id ↔ d.productions.leaf id := by
  obtain ⟨n, hn⟩ := exists_shape? hid
  obtain ⟨n', hn', he⟩ := h id n hn
  simp only [productions, hn, hn', Option.any_some]
  rw [← Node.isLeaf_bare, he, Node.isLeaf_bare]

theorem Tailed.not_leaf_tail {tails : List (List NodeId)} {n : Nat} (h : Tailed tails n d d₁)
    {k : Nat} (hk : k < n) : ¬d₁.productions.leaf (d.nodes.size + k) := by
  obtain ⟨name, hs⟩ := h.tail k hk
  simp only [productions, hs, Option.any_some]
  exact Bool.false_ne_true

theorem leaf_setCases_iff (cases : List (List NodeId)) {i : NodeId} (hi : i < d.nodes.size) :
    (d.setCases id cases).productions.leaf i ↔ d.productions.leaf i :=
  (Keeps.setCases d id cases).leaf_iff hi

/-- Removal for one medium unrolls its recursion and adds nodes behind the others. -/
theorem unrolls_productions (hd : d.Sound) (hr : d.recursiveCases id ≠ [])
    (ht : Tailed ((d.recursiveCases id).map (·.drop 1)) (d.baseCases id).length d d₁) :
    Productions.Unrolls d.productions
      (d₁.setCases id (unrolledCases (d.baseCases id) d.nodes.size)).productions
      (· < d.nodes.size) id (TailOf d id) := by
  have hkeeps : d.Keeps (d₁.setCases id (unrolledCases (d.baseCases id) d.nodes.size)) :=
    ht.grows.keeps.trans (.setCases d₁ id _)
  refine unrolls_of_cases hr (fun i case hc => hd.cases_lt i case hc)
    (fun i hi => hkeeps.leaf_iff hi) (fun k hk hleaf => ?_) (fun i case hi hne => ?_)
    (fun case => Iff.rfl) (fun case => ?_) (fun k hk case => ?_)
  · have hlt : d.nodes.size + k < d₁.nodes.size := by
      rw [ht.size]
      omega
    exact ht.not_leaf_tail hk ((leaf_setCases_iff _ hlt).1 hleaf)
  · simp only [productions, casesOf_unrolled_of_ne ht hi hne]
  · simp only [productions, casesOf_unrolled_self hr ht]
  · simp only [productions, casesOf_unrolled_tail hr ht hk]

/-- One step: the nodes there were derive the same after removal for one medium. -/
theorem derives_iff_of_removeFromMedium (hd : d.Sound) (h : d.removeFromMedium id = .ok d')
    {xs w : List NodeId} (hxs : ∀ x ∈ xs, x < d.nodes.size) :
    d'.productions.Derives xs w ↔ d.productions.Derives xs w := by
  rcases removeFromMedium_cases h with ⟨-, rfl⟩ | ⟨hr, -, d₁, ht, rfl⟩
  · exact Iff.rfl
  · exact (unrolls_productions hd hr ht).derives_iff hxs

/-- All steps: each rewrites what the steps before it left, and adds to the nodes that must derive
the same from then on. -/
theorem derives_iff_of_removeLeftRecursion {ids : List NodeId} (hd : d.Sound)
    (h : d.removeLeftRecursion ids = .ok d') {xs w : List NodeId}
    (hxs : ∀ x ∈ xs, x < d.nodes.size) :
    d'.productions.Derives xs w ↔ d.productions.Derives xs w := by
  induction ids generalizing d with
  | nil =>
    cases h
    exact Iff.rfl
  | cons id ids ih =>
    unfold removeLeftRecursion at h
    rw [List.foldlM_cons] at h
    obtain ⟨d₁, hstep, hrest⟩ := Fault.bind_eq_ok_iff.1 h
    have hsize := (keeps_removeFromMedium hstep).size_le
    have hlater := ih (hd.removeFromMedium hstep) hrest
      (fun x hx => Nat.lt_of_lt_of_le (hxs x hx) hsize)
    exact hlater.trans (derives_iff_of_removeFromMedium hd hstep hxs)

/-- Removal of left recursion, for whichever mediums and in whichever order, keeps every node of a
description and what it derives. The draft may have been through the stages for lexing, which
change no shape. -/
theorem removeLeftRecursion_keeps_language {options : GrammarOptions} {insideToken : Bool}
    {definition : Definition} {start : NodeId} {entered d d' : Draft} {ids : List NodeId}
    (hentry : addDefinition options insideToken definition .empty = .ok (start, entered))
    (hshape : ∀ i, d.shape? i = entered.shape? i) (h : d.removeLeftRecursion ids = .ok d') :
    d.Keeps d' ∧ ∀ i < d.nodes.size,
      (d'.productions.leaf i ↔ d.productions.leaf i) ∧
      ∀ w, d'.productions.Derives [i] w ↔ d.productions.Derives [i] w := by
  have hd : d.Sound := ((addDefinition_added proper_empty hentry).1.of_shape? hshape).sound
  have hkeeps := (hd.removeLeftRecursion h).2
  refine ⟨hkeeps, fun i hi => ⟨hkeeps.leaf_iff hi, fun w => ?_⟩⟩
  refine derives_iff_of_removeLeftRecursion hd h (fun x hx => ?_)
  rwa [List.mem_singleton.1 hx]

/-- Two left-recursive definitions that refer to each other. One of them has an empty case and
itself alone as a case, and the other has it inside a tail. -/
def tangled : Definition :=
  .mk "S" .medium [[.definition (.mk "A" .medium
    [[], [.reference "A"], [.reference "A", literal "x"],
      [.definition (.mk "B" .medium
        [[.reference "B", .reference "A", literal "y"], [literal "z"]])]])]]

/-- The definitions as entered, each in front of what it refers to. -/
def tangledDraft : Draft :=
  (((((Draft.empty.push "S" none (.medium { bareMedium with cases := [[1]] })).push
    "A" none (.medium { bareMedium with cases := [[], [1], [1, 2], [3]] })).push
    "x" none (.terminal ⟨false, true, .unclassified, [], [], none, none⟩)).push
    "B" none (.medium { bareMedium with cases := [[3, 1, 4], [5]] })).push
    "y" none (.terminal ⟨false, true, .unclassified, [], [], none, none⟩)).push
    "z" none (.terminal ⟨false, true, .unclassified, [], [], none, none⟩)

/-- What is derived through both recursions, and with the empty case, still is when three tails
stand for them. -/
theorem tangled_keeps_language : ∃ d', tangledDraft.removeLeftRecursion [0, 1, 3] = .ok d' ∧
    d'.nodes.size = tangledDraft.nodes.size + 3 ∧ d'.productions.Derives [0] [5, 2, 4, 2] := by
  have hentry : addDefinition {} false tangled .empty = .ok (0, tangledDraft) := by cbv
  obtain ⟨d', hd', hsize⟩ : ∃ d', tangledDraft.removeLeftRecursion [0, 1, 3] = .ok d' ∧
      d'.nodes.size = tangledDraft.nodes.size + 3 := ⟨_, rfl, rfl⟩
  have hx : tangledDraft.productions.Derives [1] [2] := by
    have hcase : tangledDraft.productions.Derives [1, 2] [2] :=
      .rule (by decide) (by decide : tangledDraft.productions.rule 1 []) .nil
        (.leaf (by decide) .nil)
    exact .of_rule (by decide) (by decide) hcase
  have hz : tangledDraft.productions.Derives [3] [5] :=
    .of_rule (by decide) (by decide) (.leaf (by decide) .nil)
  have hy : tangledDraft.productions.Derives [3] [5, 2, 4] :=
    .of_rule (by decide) (by decide : tangledDraft.productions.rule 3 [3, 1, 4])
      (hz.append (hx.append (.leaf (by decide) .nil)))
  have hwhole : tangledDraft.productions.Derives [1, 2] [5, 2, 4, 2] :=
    .append (.of_rule (by decide) (by decide : tangledDraft.productions.rule 1 [3]) hy)
      (.leaf (by decide) .nil)
  have hbefore : tangledDraft.productions.Derives [0] [5, 2, 4, 2] :=
    .of_rule (by decide) (by decide : tangledDraft.productions.rule 0 [1])
      (.of_rule (by decide) (by decide) hwhole)
  obtain ⟨-, hlanguage⟩ := removeLeftRecursion_keeps_language hentry (fun _ => rfl) hd'
  exact ⟨d', hd', hsize, ((hlanguage 0 (by decide)).2 _).2 hbefore⟩

end Draft

end Syntagma
