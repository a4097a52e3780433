import Syntagma.Grammar.Text
import Syntagma.Proofs.Grammar.Descending

/-! The written form of a trie asks for those of the tries that it goes on with, and of the tails of
its loop, but not for that of the loop itself. So it never asks for its own again, and the number of
nodes is enough of a depth to write any medium. -/

namespace Syntagma

namespace Grammar

variable {g : Grammar} {owner : NodeId → NodeId} {rank : NodeId → Nat} {i : NodeId} {t inner : Trie}

theorem trie?_of_medium? {n : Node} {data : MediumData} (hn : g.node? i = some n)
    (hd : n.medium? = some data) : g.trie? i = some data.trie := by
  rw [trie?, hn, Option.bind_some]
  obtain ⟨_, _, _, kind⟩ := n
  cases kind with
  | medium data => cases hd; rfl
  | _ => cases hd

/-- The written form of a trie asks for that of another one. -/
inductive AsksText (g : Grammar) : Trie → Trie → Prop where
  | behind {t inner : Trie} {e : NodeId × Option NodeId} (he : e ∈ t.cases)
    (hi : e.2.bind g.trie? = some inner) : AsksText g inner t
  | tails {t loop inner : Trie} {e : NodeId × Option NodeId}
    (hl : t.recursion.bind g.trie? = some loop) (he : e ∈ loop.cases)
    (hi : g.trie? e.1 = some inner) : AsksText g inner t

/-- The written form is made of the written forms that it asks for. -/
theorem trieText_succ_congr {depth depth' : Nat}
    (h : ∀ inner, g.AsksText inner t → g.trieText depth inner = g.trieText depth' inner) :
    g.trieText (depth + 1) t = g.trieText (depth' + 1) t := by
  rw [trieText, trieText]
  refine congrArg₂ (· ++ ·) (congrArg (fun cases => "|".intercalate (cases ++ _))
    (List.map_congr_left (fun e he => ?_))) (congrArg String.join ?_)
  · cases hi : e.2.bind g.trie? with
    | none => rfl
    | some inner => simp only [h inner (.behind he hi)]
  · cases hl : t.recursion.bind g.trie? with
    | none => rfl
    | some loop =>
      refine List.filterMap_congr (fun e he => ?_)
      cases hi : g.trie? e.1 with
      | none => rfl
      | some inner => simp only [Option.map_some, h inner (.tails hl he hi)]

/-- What is asked for lies further down, and is no loop either. -/
theorem Owned.of_asks (h : g.Owned owner rank) (ht : g.trie? i = some t)
    (hnot : ¬IsLoop g.trie? i) (ha : g.AsksText inner t) :
    ∃ j, g.trie? j = some inner ∧ ¬IsLoop g.trie? j ∧ Further owner rank i j := by
  cases ha with
  | behind he hi =>
    obtain ⟨next, hn, hi⟩ := Option.bind_eq_some_iff.1 hi
    obtain ⟨hf, hplain⟩ := h.descends.behind i t ht hnot _ he next hn
    exact ⟨next, hi, hplain, hf⟩
  | tails hl he hi =>
    obtain ⟨next, hn, hl⟩ := Option.bind_eq_some_iff.1 hl
    obtain ⟨hf, tails, hloop⟩ := h.descends.recursion i t ht next hn
    obtain rfl := Option.some.inj (hl.symm.trans hloop)
    cases List.mem_singleton.1 he
    obtain ⟨hf', hplain⟩ := h.descends.tails next tails hloop
    exact ⟨tails, hi, hplain, hf'.1.trans hf.1, Nat.lt_trans hf'.2 hf.2⟩

/-- Asking comes to an end. -/
theorem Owned.acc_asksText (h : g.Owned owner rank) (ht : g.trie? i = some t)
    (hnot : ¬IsLoop g.trie? i) : Acc g.AsksText t := by
  induction hr : rank i using Nat.strong_induction_on generalizing i t with
  | _ r ih =>
    refine ⟨t, fun inner ha => ?_⟩
    obtain ⟨j, hj, hplain, hf⟩ := h.of_asks ht hnot ha
    exact ih (rank j) (hr ▸ hf.2) hj hplain rfl

/-- With a depth beyond what is ahead, more of it writes the same. -/
theorem Owned.trieText_succ (h : g.Owned owner rank) {depth : Nat} (ht : g.trie? i = some t)
    (hnot : ¬IsLoop g.trie? i) (hd : (g.ahead owner rank (fun _ => true) i).card < depth) :
    g.trieText (depth + 1) t = g.trieText depth t := by
  induction depth generalizing i t with
  | zero => exact absurd hd (Nat.not_lt_zero _)
  | succ depth ih =>
    refine trieText_succ_congr (fun inner ha => ?_)
    obtain ⟨j, hj, hplain, hf⟩ := h.of_asks ht hnot ha
    have hlt : (g.ahead owner rank (fun _ => true) j).card <
        (g.ahead owner rank (fun _ => true) i).card :=
      card_ahead_lt hf (lt_size_of_trie? hj) rfl (fun _ => id)
    exact ih hj hplain (Nat.lt_of_lt_of_le hlt (Nat.le_of_lt_succ hd))

/-- The number of nodes is enough of a depth. -/
theorem Owned.trieText_eq (h : g.Owned owner rank) {depth : Nat} (ht : g.trie? i = some t)
    (hnot : ¬IsLoop g.trie? i) (hd : g.nodes.size ≤ depth) :
    g.trieText depth t = g.trieText g.nodes.size t := by
  have hlt : (g.ahead owner rank (fun _ => true) i).card < g.nodes.size :=
    card_ahead_lt_size (lt_size_of_trie? ht) rfl
  induction depth, hd using Nat.le_induction with
  | base => rfl
  | succ depth hd ih => rw [h.trieText_succ ht hnot (Nat.lt_of_lt_of_le hlt hd), ih]

end Grammar

end Syntagma
