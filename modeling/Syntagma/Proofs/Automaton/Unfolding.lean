import Syntagma.Proofs.Automaton.Tours

/-! Generations that the tour through a token follows. Where a medium is entered, what it generates
is read on from the state before it. Where it is met again there is only a loop, which leads over
the links that were noted where it was entered, and these lack what another loop would have added.
So the tour follows a generation if each medium that is met again generates nothing by an empty case
of its own, or a text that starts over one of its own links. -/

namespace Syntagma.TokenWalk

variable {g : Grammar} {token : NodeId}

/-- The cases that count: published ones of a medium with a case to speak of, but for itself
alone. -/
def counted (g : Grammar) (id : NodeId) (case : List NodeId) : Prop :=
  g.substantial id case ∧ case ≠ [id]

/-- The generation of a text by what stands at a place, as the tour through the token follows it.
With `via` the text starts over a link of that medium: with a class or a terminal that has a text,
in mediums that are entered there. A class generates the characters that are found in it. -/
inductive Unfolds (g : Grammar) (token : NodeId) :
    Option NodeId → Place → List NodeId → List Char → Prop where
  | nil {p : Place} : Unfolds g token none p [] []
  | terminal {via : Option NodeId} {p : Place} {head : NodeId} {rest : List NodeId}
    {text : List Char} {n : Node} (hn : g.node? head = some n) (ht : n.isTerminal)
    (hsolid : via.isSome → n.name ≠ "") (h : Unfolds g token none (p.past head) rest text) :
    Unfolds g token via p (head :: rest) (n.name.toList ++ text)
  | symbolClass {via : Option NodeId} {p : Place} {head : NodeId} {rest : List NodeId} {c : Char}
    {text : List Char} {data : ClassData} (hclass : classOf? g head = some data)
    (hc : c ∈ data.symbols.toList) (hfound : g.classTable.symbolInfo c = .classified data.key)
    (h : Unfolds g token none (p.past head) rest text) :
    Unfolds g token via p (head :: rest) (c :: text)
  | enter {via : Option NodeId} {p : Place} {head : NodeId} {case rest : List NodeId}
    {text more : List Char} (hfirst : ¬MetAgain g token p head) (hcase : counted g head case)
    (h : Unfolds g token via ⟨head, []⟩ case text)
    (hrest : Unfolds g token none (p.past head) rest more) :
    Unfolds g token via p (head :: rest) (text ++ more)
  | loop {via : Option NodeId} {p : Place} {head : NodeId} {case rest : List NodeId}
    {text more : List Char} (hvia : ∀ medium ∈ via, medium = head) (hcase : counted g head case)
    (h : Unfolds g token (some head) ⟨head, []⟩ case text)
    (hrest : Unfolds g token none (p.past head) rest more) :
    Unfolds g token via p (head :: rest) (text ++ more)
  | skip {p : Place} {head : NodeId} {rest : List NodeId} {more : List Char}
    (hcase : counted g head []) (hrest : Unfolds g token none (p.past head) rest more) :
    Unfolds g token none p (head :: rest) more

/-- A token generates the text as the tour through it follows. -/
def UnfoldsToken (g : Grammar) (token : NodeId) (text : List Char) : Prop :=
  ∃ case, counted g token case ∧ Unfolds g token none ⟨token, []⟩ case text

/-- What is followed is generated. -/
theorem Unfolds.generates {via : Option NodeId} {p : Place} {case : List NodeId}
    {text : List Char} (h : Unfolds g token via p case text) :
    Grammar.Generates g g.published case text := by
  induction h with
  | nil => exact .nil
  | terminal hn ht _ _ ih => exact .terminal hn ht ih
  | symbolClass hclass hc _ _ ih => exact .symbolClass hclass hc ih
  | enter _ hcase _ _ ih ihrest => exact .medium hcase.1.1 ih ihrest
  | loop _ hcase _ _ ih ihrest => exact .medium hcase.1.1 ih ihrest
  | skip hcase _ ih => exact .medium hcase.1.1 .nil ih

theorem Unfolds.eq_nil {via : Option NodeId} {p : Place} {case : List NodeId} {text : List Char}
    (h : Unfolds g token via p case text) (hnil : case = []) : text = [] := by
  subst hnil
  cases h
  rfl

theorem UnfoldsToken.generates {text : List Char} (h : UnfoldsToken g token text) :
    Grammar.Generates g g.published [token] text := by
  obtain ⟨case, hcase, h⟩ := h
  have hall := Grammar.Generates.medium hcase.1.1 h.generates .nil
  rwa [List.append_nil] at hall

/-! ### Searching for a generation -/

/-- The cases that count, as a list. -/
def countedCases (g : Grammar) (id : NodeId) : List (List NodeId) :=
  (g.casesOf id).filter (fun case => case != [id] &&
    (g.casesOf id).any (fun other => other != [] && other != [id]))

theorem counted_of_mem {id : NodeId} {case : List NodeId} (h : case ∈ countedCases g id) :
    counted g id case := by
  simp only [countedCases, List.mem_filter, Bool.and_eq_true, bne_iff_ne, List.any_eq_true] at h
  exact ⟨⟨h.1, h.2.2⟩, h.2.1⟩

/-- Whether the tour that meets these places again follows a generation of the text, as far as a
search of this depth finds one in which mediums stand last. -/
def unfolds? (g : Grammar) (again : List (Place × NodeId)) :
    Nat → Option NodeId → Place → List NodeId → List Char → Bool
  | 0, _, _, _, _ => false
  | _ + 1, via, _, [], text => via.isNone && text.isEmpty
  | depth + 1, via, p, head :: rest, text =>
    match g.node? head with
    | none => false
    | some n =>
      match n.kind, text with
      | .terminal _, text => n.name.toList.isPrefixOf text && (via.isNone || n.name != "") &&
          unfolds? g again depth none (p.past head) rest (text.drop n.name.toList.length)
      | .symbolClass data, c :: text => data.symbols.toList.contains c &&
          g.classTable.symbolInfo c == .classified data.key &&
          unfolds? g again depth none (p.past head) rest text
      | .medium _, text => rest.isEmpty && (countedCases g head).any (fun case =>
          !again.contains (p, head) && unfolds? g again depth via ⟨head, []⟩ case text ||
            via.all (· == head) && unfolds? g again depth (some head) ⟨head, []⟩ case text ||
            via.isNone && case.isEmpty && text.isEmpty)
      | _, _ => false

theorem unfolds_of_search {again : List (Place × NodeId)}
    (hagain : ∀ p medium, (p, medium) ∉ again → ¬MetAgain g token p medium) {depth : Nat}
    {via : Option NodeId} {p : Place} {case : List NodeId} {text : List Char}
    (h : unfolds? g again depth via p case text) : Unfolds g token via p case text := by
  induction depth generalizing via p case text with
  | zero => cases h
  | succ depth ih =>
    cases case with
    | nil =>
      obtain ⟨hvia, htext⟩ := Bool.and_eq_true_iff.1 h
      obtain rfl := Option.isNone_iff_eq_none.1 hvia
      obtain rfl := List.isEmpty_iff.1 htext
      exact .nil
    | cons head rest =>
      unfold unfolds? at h
      split at h
      next => cases h
      next n hn =>
        split at h
        next data hk =>
          simp only [Bool.and_eq_true, Bool.or_eq_true, Option.isNone_iff_eq_none, bne_iff_ne] at h
          obtain ⟨⟨hstart, hsolid⟩, hrest⟩ := h
          obtain ⟨more, rfl⟩ := List.isPrefixOf_iff_prefix.1 hstart
          rw [List.drop_left] at hrest
          have hterminal : n.isTerminal := by simp [Node.isTerminal, Node.terminal?, hk]
          refine .terminal hn hterminal (fun hvia => ?_) (ih hrest)
          exact hsolid.resolve_left (Option.ne_none_iff_isSome.2 hvia)
        next data c text hk =>
          simp only [Bool.and_eq_true, beq_iff_eq] at h
          obtain ⟨⟨hc, hfound⟩, hrest⟩ := h
          have hclass : classOf? g head = some data := by simp [classOf?, hn, Node.class?, hk]
          exact .symbolClass hclass (List.contains_iff_mem.1 hc) hfound (ih hrest)
        next text _ _ _ _ =>
          obtain ⟨hlast, hany⟩ := Bool.and_eq_true_iff.1 h
          obtain rfl := List.isEmpty_iff.1 hlast
          obtain ⟨case, hmem, hsearch⟩ := List.any_eq_true.1 hany
          have hcase := counted_of_mem hmem
          simp only [Bool.or_eq_true, Bool.and_eq_true, Bool.not_eq_true', List.contains_eq_mem,
            decide_eq_false_iff_not, Option.isNone_iff_eq_none, List.isEmpty_iff] at hsearch
          rw [← List.append_nil text]
          rcases hsearch with (⟨hfirst, hinner⟩ | ⟨hvia, hinner⟩) | ⟨⟨rfl, rfl⟩, rfl⟩
          · exact .enter (hagain p head hfirst) hcase (ih hinner) .nil
          · refine .loop (fun medium hm => ?_) hcase (ih hinner) .nil
            rw [Option.mem_def.1 hm, Option.all_some, beq_iff_eq] at hvia
            exact hvia
          · exact .skip hcase .nil
        next => cases h

/-- The same for a whole token, whose tour is gone to the same depth. -/
def unfoldsToken? (g : Grammar) (depth : Nat) (token : NodeId) (text : List Char) : Bool :=
  (tour? g depth (tourOf g token) ⟨[token], []⟩).any (fun t => (countedCases g token).any
    (fun case => unfolds? g t.again depth none ⟨token, []⟩ case text))

theorem unfoldsToken_of_search {depth : Nat} {text : List Char}
    (h : unfoldsToken? g depth token text) : UnfoldsToken g token text := by
  obtain ⟨t, ht, hany⟩ := (Option.any_eq_true _ _).1 h
  obtain ⟨case, hmem, hsearch⟩ := List.any_eq_true.1 hany
  exact ⟨case, counted_of_mem hmem,
    unfolds_of_search (fun _ _ hout => not_metAgain_of_tour? ht hout) hsearch⟩

end Syntagma.TokenWalk
