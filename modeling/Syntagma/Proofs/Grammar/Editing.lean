import Syntagma.Grammar.Compile
import Syntagma.Proofs.Fault
import Syntagma.Proofs.Grammar.Shape

/-! What handling left recursion and factorization do to a draft, seen node by node: they add
mediums and factors that are no tokens, and change cases and tries of mediums. Whatever else is seen
of a node stays. -/

namespace Syntagma

/-- A factor, or a medium that is no token. -/
def NodeKind.isAuxiliary : NodeKind → Bool
  | .factor _ => true
  | .medium data => data.token.isNone
  | _ => false

namespace Draft

variable {d d' d'' : Draft} {id : NodeId}

/-- The second draft has come from the first by such steps. -/
inductive Edited (d : Draft) : Draft → Prop where
  | refl : Edited d d
  | push {d' : Draft} (h : Edited d d') (name : String) (execClass : Option String)
    {kind : NodeKind} (hk : kind.isAuxiliary) : Edited d (d'.push name execClass kind)
  | modify {d' : Draft} (h : Edited d d') (id : NodeId) {f : MediumData → MediumData}
    (hf : ∀ data, (f data).token = data.token) : Edited d (d'.modifyMedium id f)

theorem Edited.trans (h : d.Edited d') (h' : d'.Edited d'') : d.Edited d'' := by
  induction h' with
  | refl => exact h
  | push _ name execClass hk ih => exact .push ih name execClass hk
  | modify _ id hf ih => exact .modify ih id hf

/-- What is seen of a node stays, if nothing is seen of new nodes and no change of a medium
shows. -/
theorem Edited.getElem?_bind {β : Type} {part : Node → Option β}
    (hnew : ∀ id name execClass kind, kind.isAuxiliary → part ⟨id, name, execClass, kind⟩ = none)
    (hsame : ∀ (f : MediumData → MediumData) n, (∀ data, (f data).token = data.token) →
      part (onMedium f n) = part n)
    (h : d.Edited d') (i : NodeId) : (d'.nodes[i]?).bind part = (d.nodes[i]?).bind part := by
  induction h with
  | refl => rfl
  | @push d' _ name execClass kind hk ih =>
    rw [getElem?_push, ← ih]
    split
    next hi =>
      rw [hi, Option.bind_some, hnew _ _ _ _ hk, Array.getElem?_eq_none (Nat.le_refl _)]
      rfl
    · rfl
  | @modify d' _ id f hf ih =>
    rw [getElem?_modifyMedium, ← ih]
    split
    · rw [Option.bind_map]
      congr 1
      funext n
      exact hsame f n hf
    · rfl

/-! ### The steps -/

theorem edited_pushTails (name : String) (tails : List (List NodeId)) (l : List Nat) (d : Draft) :
    d.Edited (l.foldl (pushTail name tails) d) := by
  induction l generalizing d with
  | nil => exact .refl
  | cons k l ih => exact (Edited.push .refl _ _ rfl).trans (ih _)

theorem edited_removeFromMedium (h : d.removeFromMedium id = .ok d') : d.Edited d' := by
  unfold removeFromMedium at h
  dsimp only at h
  split at h
  · cases h
    exact .refl
  · split at h
    · exact nomatch h
    · cases h
      exact (edited_pushTails _ _ _ d).modify id (fun _ => rfl)

theorem edited_pushFactor (d : Draft) (owner : String) (trie : Trie) :
    d.Edited (d.pushFactor owner trie) := .push .refl _ _ rfl

mutual

theorem edited_plant (owner : String) (b : Branching) (d : Draft) :
    d.Edited (plant owner b d).2 := by
  obtain ⟨branches, ends⟩ := b
  unfold plant
  exact edited_plantBranches owner branches d

theorem edited_plantBranches (owner : String) (branches : List (NodeId × Option Branching))
    (d : Draft) : d.Edited (plantBranches owner branches d).2 := by
  match branches with
  | [] => exact .refl
  | (head, none) :: rest =>
    unfold plantBranches
    exact edited_plantBranches owner rest d
  | (head, some b) :: rest =>
    unfold plantBranches
    exact ((edited_plant owner b d).trans (edited_pushFactor _ owner _)).trans
      (edited_plantBranches owner rest _)

end

theorem edited_factorize (d : Draft) (owner : String) (cases : List (List NodeId)) :
    d.Edited (d.factorize owner cases).2 := by
  unfold factorize
  split
  · exact edited_plant owner _ d
  · exact .refl

theorem edited_plantLoop (d : Draft) (owner : String) (tails : List (List NodeId)) :
    d.Edited (d.plantLoop owner tails).2 := by
  unfold plantLoop
  split
  · exact ((edited_plant owner _ d).trans (edited_pushFactor _ owner _)).trans
      (edited_pushFactor _ owner _)
  · exact .refl

theorem edited_factorizeMedium (d : Draft) (id : NodeId) : d.Edited (d.factorizeMedium id) :=
  (edited_factorize d _ _).modify id (fun _ => rfl)

theorem edited_factorizeKeeping (h : d.factorizeKeeping id = .ok d') : d.Edited d' := by
  unfold factorizeKeeping at h
  dsimp only at h
  have htrie := edited_factorize d (d.nameOf id) (d.baseCases id)
  split at h
  · exact nomatch h
  · split at h
    · cases h
      exact htrie.modify id (fun _ => rfl)
    · cases h
      exact (htrie.trans (edited_plantLoop _ _ _)).modify id (fun _ => rfl)

theorem edited_factorizeMediums (ids : List NodeId) (d : Draft) :
    d.Edited (ids.foldl factorizeMedium d) := by
  induction ids generalizing d with
  | nil => exact .refl
  | cons id ids ih => exact (edited_factorizeMedium d id).trans (ih _)

/-- Whether left recursion is removed or kept, nothing else happens to the nodes. -/
theorem edited_factorizeAll {options : GrammarOptions} (h : d.factorizeAll options = .ok d') :
    d.Edited d' := by
  unfold factorizeAll at h
  split at h
  · obtain ⟨d₁, hr, h⟩ := Fault.bind_eq_ok_iff.1 h
    cases h
    have hremoved : d.Edited d₁ := Fault.foldlM_keeps
      (fun _ _ _ _ hsame hstep => hsame.trans (edited_removeFromMedium hstep)) .refl hr
    exact hremoved.trans (edited_factorizeMediums _ d₁)
  · exact Fault.foldlM_keeps
      (fun _ _ _ _ hsame hstep => hsame.trans (edited_factorizeKeeping hstep)) .refl h

end Draft

end Syntagma
