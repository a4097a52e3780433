import Syntagma.Proofs.Grammar.Planting

/-! Alternatives with common prefixes. The trie of distinct cases spells the cases and nothing else.
At its root and in each factor made for it stand the symbols that come next in the cases, each once:
behind some first symbols of a case, those that the cases beginning with them have there. -/

namespace Syntagma

/-- The symbols that follow a path in the cases that begin with it, in the order of the cases. -/
def nextAfter (path : List NodeId) (cases : List (List NodeId)) : List NodeId :=
  cases.filterMap (fun case => if path <+: case then case[path.length]? else none)

variable {cases : List (List NodeId)} {head : NodeId} {path : List NodeId}

theorem nextAfter_nil (cases : List (List NodeId)) :
    nextAfter [] cases = cases.filterMap List.head? := by
  simp [nextAfter, List.head?_eq_getElem?]

theorem mem_of_mem_nextAfter (h : head ∈ nextAfter path cases) : ∃ case ∈ cases, head ∈ case := by
  obtain ⟨case, hc, hnext⟩ := List.mem_filterMap.1 h
  split at hnext
  · exact ⟨case, hc, List.mem_of_getElem? hnext⟩
  · exact nomatch hnext

namespace Branching

variable {b inner : Branching} {depth : Nat}

theorem nextAfter_cons (head : NodeId) (path : List NodeId) (cases : List (List NodeId)) :
    nextAfter (head :: path) cases = nextAfter path (tailsOf head cases) := by
  induction cases with
  | nil => rfl
  | cons case cases ih =>
    cases case with
    | nil => exact ih
    | cons h t =>
      unfold tailsOf
      by_cases hh : h = head
      · subst hh
        simp only [nextAfter, List.length_cons] at ih
        simp only [if_pos, nextAfter, List.filterMap_cons, List.cons_prefix_cons, true_and,
          List.length_cons, List.getElem?_cons_succ, ih]
      · rw [if_neg hh, ← ih, nextAfter, List.filterMap_cons]
        simp [Ne.symm hh, nextAfter]

/-- At the root of a merged tree stand the first symbols of the cases, and there are some if there
are any cases. -/
theorem heads_ofCasesWithin (hb : ofCasesWithin depth cases = some b) :
    b.branches.map (·.1) = (nextAfter [] cases).eraseDups ∧ (cases ≠ [] → b.branches ≠ []) := by
  cases depth with
  | zero =>
    unfold ofCasesWithin at hb
    split at hb
    next he =>
      cases hb
      rw [List.isEmpty_iff.1 he]
      exact ⟨rfl, fun hne => absurd rfl hne⟩
    · cases hb
  | succ depth =>
    unfold ofCasesWithin at hb
    split at hb
    · cases hb
    next hsome =>
      cases hb
      refine ⟨?_, fun hne hnil => hsome ?_⟩
      · rw [nextAfter_nil, branches, List.map_map]
        exact List.map_id _
      · have hheads : heads cases = [] := List.map_eq_nil_iff.1 hnil
        have hall : ∀ case ∈ cases, case = [] := fun case hc =>
          List.eq_nil_iff_forall_not_mem.2 (by
            cases case with
            | nil => exact fun _ => List.not_mem_nil
            | cons h t => exact absurd (mem_heads.2 ⟨t, hc⟩) (hheads ▸ List.not_mem_nil))
        simpa [hne] using hall

/-- So it is in every inner tree, with the symbols that come next behind its path. -/
theorem heads_of_behind (hp : b.Behind path inner) (hb : ofCasesWithin depth cases = some b) :
    inner.branches.map (·.1) = (nextAfter path cases).eraseDups ∧ inner.branches ≠ [] := by
  have hlevel {b next : Branching} {head : NodeId} {depth : Nat} {cases : List (List NodeId)}
      (hmem : (head, some next) ∈ b.branches) (hb : ofCasesWithin depth cases = some b) :
      ∃ depth', ofCasesWithin depth' (tailsOf head cases) = some next ∧ tailsOf head cases ≠ [] := by
    cases depth with
    | zero =>
      unfold ofCasesWithin at hb
      split at hb <;> cases hb
      exact absurd hmem List.not_mem_nil
    | succ depth =>
      unfold ofCasesWithin at hb
      split at hb <;> cases hb
      obtain ⟨_, hh, heq⟩ := List.mem_map.1 hmem
      obtain ⟨rfl, hnext⟩ := Prod.mk.inj heq
      exact ⟨depth, hnext, tailsOf_ne_nil hh⟩
  induction hp generalizing depth cases with
  | head hmem =>
    obtain ⟨depth', hnext, hne⟩ := hlevel hmem hb
    obtain ⟨hheads, hsome⟩ := heads_ofCasesWithin hnext
    exact ⟨by rw [hheads, nextAfter_cons], hsome hne⟩
  | step hmem _ ih =>
    obtain ⟨depth', hnext, -⟩ := hlevel hmem hb
    rw [nextAfter_cons]
    exact ih hnext

end Branching

/-- The trie has these first symbols, each once and in the order in which they first appear, and has
at least one. -/
structure Trie.Lists (t : Trie) (symbols : List NodeId) : Prop where
  heads : t.cases.map (·.1) = symbols.eraseDups
  nodup : (t.cases.map (·.1)).Nodup
  nonempty : t.cases ≠ []

namespace Draft

variable {d d' : Draft}

theorem Mirrors.lists {base : Nat} {trie : Trie} {b : Branching} {symbols : List NodeId}
    (h : d.Mirrors base trie b) (hheads : b.branches.map (·.1) = symbols.eraseDups)
    (hsome : b.branches ≠ []) : trie.Lists symbols where
  heads := h.heads.trans hheads
  nodup := h.heads.trans hheads ▸ Distinct.nodup_eraseDups symbols
  nonempty hnil := hsome (List.map_eq_nil_iff.1 (h.heads ▸ List.map_eq_nil_iff.2 hnil))

/-- Distinct cases of which one is not empty make a trie, and it spells exactly the cases. The nodes
made for it are factors, each behind some symbols; its root and each of them list the symbols that
come next there. -/
theorem factorize_spells_exactly (d : Draft) (owner : String) {cases : List (List NodeId)}
    (hdistinct : cases.Nodup) (hsome : ∃ case ∈ cases, case ≠ []) :
    ∃ b trie d', Branching.ofCases cases = some b ∧ d.factorize owner cases = (trie, d') ∧
      d.Grows d' ∧ (∀ w, trie.Spells d'.trie? w ↔ w ∈ cases) ∧ trie.Lists (nextAfter [] cases) ∧
      ∀ id n, d.nodes.size ≤ id → d'.shape? id = some n → ∃ path t, n.kind = .factor t ∧
        trie.Behind d'.trie? path id ∧ t.Lists (nextAfter path cases) := by
  cases hb : Branching.ofCases cases with
  | none =>
    obtain ⟨case, hc, hne⟩ := hsome
    have hall := (Branching.ofCasesWithin_eq_none_iff Branching.length_le_longest).1 hb
    exact absurd (hall.2 case hc) hne
  | some b =>
    rcases hp : plant owner b d with ⟨trie, d'⟩
    have hmade := made_plant hp
    obtain ⟨hroot, hroot'⟩ := Branching.heads_ofCasesWithin hb
    have hcases : cases ≠ [] := List.ne_nil_of_mem hsome.choose_spec.1
    refine ⟨b, trie, d', rfl, by simp only [factorize, hb, hp], hmade.grows, fun w => ?_,
      hmade.mirrors.lists hroot (hroot' hcases), fun id n hle hn => ?_⟩
    · exact (hmade.mirrors.represents d' (.refl d') w).trans
        ((Branching.spells_ofCases hb w).trans (unambiguous_of_nodup hdistinct hsome w))
    · obtain ⟨-, path, t, inner, hk, hbehind, hinner, hmirrors⟩ := hmade.new id n hle hn
      obtain ⟨hheads, hne⟩ := Branching.heads_of_behind hinner hb
      exact ⟨path, t, hk, hbehind, hmirrors.lists hheads hne⟩

/-! ### Letters -/

/-- Five letters, numbered from 0. -/
def letters : Draft :=
  ["a", "b", "c", "d", "e"].foldl (fun d text => d.push text none (.terminal default)) .empty

/-- Cases that begin one another, and an empty one. -/
def prefixes : List (List NodeId) := [[1, 2], [1], [], [3, 1], [1, 2, 4]]

/-- Three factors are made for them: behind `b` and, further on, behind `b c`, and behind `d`. -/
theorem prefixes_spell_exactly : prefixes.Nodup ∧ (∃ case ∈ prefixes, case ≠ []) ∧
    ∃ trie d', letters.factorize "Letters" prefixes = (trie, d') ∧
      trie = ⟨[(1, some 6), (3, some 7)], true, none⟩ ∧ d'.nodes.size = 8 ∧
      (∀ w, trie.Spells d'.trie? w ↔ w ∈ prefixes) ∧
      trie.Lists [1, 1, 3, 1] ∧ ∀ id n, 5 ≤ id → d'.shape? id = some n → n.isFactor := by
  have hdistinct : prefixes.Nodup := by decide
  have hsome : ∃ case ∈ prefixes, case ≠ [] := ⟨[1], by decide, by decide⟩
  obtain ⟨_, trie, d', -, hplanted, -, hspells, hroot, hnew⟩ :=
    factorize_spells_exactly letters "Letters" hdistinct hsome
  obtain ⟨htrie, hsize⟩ : (letters.factorize "Letters" prefixes).1 =
      ⟨[(1, some 6), (3, some 7)], true, none⟩ ∧
        (letters.factorize "Letters" prefixes).2.nodes.size = 8 := by decide +kernel
  rw [hplanted] at htrie hsize
  refine ⟨hdistinct, hsome, trie, d', hplanted, htrie, hsize, hspells, hroot, fun id n hle hn => ?_⟩
  obtain ⟨path, t, hk, -⟩ := hnew id n hle hn
  rw [Node.isFactor, hk]

end Draft

end Syntagma
