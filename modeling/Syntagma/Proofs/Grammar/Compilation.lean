import Syntagma.Proofs.Grammar.Entry
import Syntagma.Proofs.Grammar.Publication

/-! Compilation as a whole. A compiled grammar is the description entered, factorized and
published; what is done for lexing on the way changes no shape. -/

namespace Syntagma

namespace Draft

theorem Proper.sound {d : Draft} (hd : d.Proper) : d.Sound where
  id_eq := hd.id_eq
  cases_lt := hd.cases_lt
  fits id trie ht := hd.trie_empty id trie ht ▸ fits_empty d

theorem shape_assignTokenClasses (nodes : List Node) (m : TokenClassMap) :
    (assignTokenClasses nodes m).1.map (·.shape) = nodes.map (·.shape) := by
  induction nodes generalizing m with
  | nil => rfl
  | cons n nodes ih =>
    obtain ⟨id, name, execClass, kind⟩ := n
    unfold assignTokenClasses
    cases kind with
    | medium data =>
      obtain ⟨cases, trie, token, isSynthetic⟩ := data
      cases token with
      | none => exact congrArg (List.cons _) (ih m)
      | some tag => exact congrArg (List.cons _) (ih _)
    | _ => exact congrArg (List.cons _) (ih m)

theorem shape_markControl (unclassified : List String) (n : Node) :
    (markControl unclassified n).shape = n.shape := by
  obtain ⟨id, name, execClass, kind⟩ := n
  cases kind <;> rfl

theorem shape?_of_map_shape {d d' : Draft}
    (h : d'.nodes.toList.map (·.shape) = d.nodes.toList.map (·.shape)) (i : NodeId) :
    d'.shape? i = d.shape? i := by
  have hi := congrArg (·[i]?) h
  simpa [shape?] using hi

/-- A draft with its token classes numbered, and the terminals outside of all classes marked. -/
def classed (d : Draft) (tokenClasses : TokenClassMap) (unclassified : List String) : Draft :=
  ⟨((assignTokenClasses d.nodes.toList tokenClasses).1.map (markControl unclassified)).toArray⟩

theorem shape?_classed (d : Draft) (tokenClasses : TokenClassMap) (unclassified : List String)
    (i : NodeId) : (d.classed tokenClasses unclassified).shape? i = d.shape? i := by
  refine shape?_of_map_shape ?_ i
  rw [classed, List.map_map, ← shape_assignTokenClasses d.nodes.toList tokenClasses]
  exact List.map_congr_left (fun n _ => shape_markControl unclassified n)

end Draft

/-- The stages that led to a compiled grammar: the description as entered, the same with token
classes numbered, and all mediums factorized. -/
structure Compiled (description : GrammarDescription) (options : GrammarOptions) (g : Grammar)
    (start : NodeId) (entered classed factorized : Draft) : Prop where
  entry : Draft.addDefinition options false description.axiomDefinition .empty =
    .ok (start, entered)
  medium : (entered.shape? start).any (·.isMedium)
  numbered : ∃ tokenClasses unclassified, classed = entered.classed tokenClasses unclassified
  factorize : classed.factorizeAll options = .ok factorized
  published : ∃ classTable unclassified hasLeftRecursion,
    g = factorized.publish start classTable unclassified hasLeftRecursion

namespace Compiled

variable {description : GrammarDescription} {options : GrammarOptions} {g : Grammar}
  {start : NodeId} {entered classed factorized : Draft}

theorem shape (h : Compiled description options g start entered classed factorized) (i : NodeId) :
    classed.shape? i = entered.shape? i := by
  obtain ⟨_, _, rfl⟩ := h.numbered
  exact Draft.shape?_classed _ _ _ i

theorem proper (h : Compiled description options g start entered classed factorized) :
    classed.Proper :=
  (Draft.addDefinition_added Draft.proper_empty h.entry).1.of_shape? h.shape

theorem sound (h : Compiled description options g start entered classed factorized) :
    factorized.Sound ∧ classed.Keeps factorized :=
  h.proper.sound.factorizeAll h.factorize

theorem axiomId_eq (h : Compiled description options g start entered classed factorized) :
    g.axiomId = factorized.newId start := by
  obtain ⟨_, _, _, rfl⟩ := h.published
  rfl

theorem publish (h : Compiled description options g start entered classed factorized) :
    Publishes factorized g factorized.newId := by
  obtain ⟨_, _, _, rfl⟩ := h.published
  exact Draft.publishes_publish h.sound.1.id_eq _ _ _ _

theorem start_isMedium (h : Compiled description options g start entered classed factorized) :
    (classed.shape? start).any (·.isMedium) :=
  (h.shape start).symm ▸ h.medium

theorem linked (h : Compiled description options g start entered classed factorized) :
    g.Linked := by
  obtain ⟨hsound, hkeeps⟩ := h.sound
  refine h.publish.linked hsound (Draft.isSome_trie?_of_isMedium ?_) h.axiomId_eq
  rw [hkeeps.isMedium (Draft.lt_size_of_isMedium h.start_isMedium)]
  exact h.start_isMedium

end Compiled

theorem compiled_of_compile {description : GrammarDescription} {options : GrammarOptions}
    {g : Grammar} (h : Grammar.compile description options = .ok g) :
    ∃ start entered classed factorized,
      Compiled description options g start entered classed factorized := by
  unfold Grammar.compile at h
  obtain ⟨⟨start, entered⟩, hentry, h⟩ := Fault.bind_eq_ok_iff.1 h
  dsimp only at h
  split at h
  · exact nomatch h
  next hmedium =>
    obtain ⟨factorized, hf, h⟩ := Fault.bind_eq_ok_iff.1 h
    cases h
    refine ⟨start, entered, _, factorized, hentry, ?_, ⟨_, _, rfl⟩, hf, _, _, _, rfl⟩
    cases hn : entered.nodes[start]? with
    | none => simp [hn] at hmedium
    | some n => simpa [hn, Draft.shape?] using hmedium

/-- Every compiled grammar can be walked, with its left recursion removed or kept. -/
theorem linked_of_compile {description : GrammarDescription} {options : GrammarOptions}
    {g : Grammar} (h : Grammar.compile description options = .ok g) : g.Linked := by
  obtain ⟨start, entered, classed, factorized, hc⟩ := compiled_of_compile h
  exact hc.linked

end Syntagma
