import Mathlib.Logic.Relation
import Syntagma.Proofs.Grammar.PublishedCases

/-! The texts that definitions generate, and the places where their mediums stand. A medium comes
again in a definition if it stands at two places of the cases that the definition leads to, or if it
is the definition itself. -/

namespace Syntagma.Grammar

/-- A sequence of nodes generates a text: a terminal its own, a class any one of its declared
characters, and a medium what one of its cases generates, of which `rule` tells. -/
inductive Generates (g : Grammar) (rule : NodeId → List NodeId → Prop) :
    List NodeId → List Char → Prop where
  | nil : Generates g rule [] []
  | terminal {head : NodeId} {rest : List NodeId} {text : List Char} {n : Node}
    (hn : g.node? head = some n) (ht : n.isTerminal) (hrest : Generates g rule rest text) :
    Generates g rule (head :: rest) (n.name.toList ++ text)
  | symbolClass {head : NodeId} {rest : List NodeId} {c : Char} {text : List Char}
    {data : ClassData} (hclass : (g.node? head).bind (·.class?) = some data)
    (hc : c ∈ data.symbols.toList) (hrest : Generates g rule rest text) :
    Generates g rule (head :: rest) (c :: text)
  | medium {head : NodeId} {case rest : List NodeId} {text more : List Char}
    (hcase : rule head case) (h : Generates g rule case text)
    (hrest : Generates g rule rest more) : Generates g rule (head :: rest) (text ++ more)

namespace Generates

variable {g : Grammar} {rule : NodeId → List NodeId → Prop} {case case' : List NodeId}
  {text text' : List Char}

theorem eq_nil (h : Generates g rule case text) (hnil : case = []) : text = [] := by
  subst hnil
  cases h
  rfl

theorem append (h : Generates g rule case text) (h' : Generates g rule case' text') :
    Generates g rule (case ++ case') (text ++ text') := by
  induction h with
  | nil => exact h'
  | terminal hn ht _ ih =>
    rw [List.cons_append, List.append_assoc]
    exact .terminal hn ht ih
  | symbolClass hclass hc _ ih => exact .symbolClass hclass hc ih
  | medium hcase h _ _ ih =>
    rw [List.cons_append, List.append_assoc]
    exact .medium hcase h ih

theorem imp {rule' : NodeId → List NodeId → Prop} (h : Generates g rule case text)
    (hrule : ∀ id case, rule id case → rule' id case) : Generates g rule' case text := by
  induction h with
  | nil => exact .nil
  | terminal hn ht _ ih => exact .terminal hn ht ih
  | symbolClass hclass hc _ ih => exact .symbolClass hclass hc ih
  | medium hcase _ _ ih ihrest => exact .medium (hrule _ _ hcase) ih ihrest

/-- A case of the medium alone can be left out. -/
theorem without_self (h : Generates g rule case text) :
    Generates g (fun id case => rule id case ∧ case ≠ [id]) case text := by
  induction h with
  | nil => exact .nil
  | terminal hn ht _ ih => exact .terminal hn ht ih
  | symbolClass hclass hc _ ih => exact .symbolClass hclass hc ih
  | @medium head case rest text more hcase _ _ ih ihrest =>
    by_cases hself : case = [head]
    · subst hself
      exact ih.append ihrest
    · exact .medium ⟨hcase, hself⟩ ih ihrest

end Generates

/-- The published cases as they are. -/
def published (g : Grammar) (id : NodeId) (case : List NodeId) : Prop := case ∈ g.casesOf id

/-- The published cases of a medium that has other cases than empty ones and itself alone. -/
def substantial (g : Grammar) (id : NodeId) (case : List NodeId) : Prop :=
  case ∈ g.casesOf id ∧ ∃ other ∈ g.casesOf id, other ≠ [] ∧ other ≠ [id]

/-- In some case of `owner` the medium stands behind these symbols. -/
def Occurs (g : Grammar) (owner : NodeId) (before : List NodeId) (medium : NodeId) : Prop :=
  ∃ case ∈ g.casesOf owner, before ++ [medium] <+: case

/-- The nodes that the cases of a token lead to. -/
inductive Within (g : Grammar) (token : NodeId) : NodeId → Prop where
  | self : Within g token token
  | step {owner medium : NodeId} {before : List NodeId} (h : Within g token owner)
    (ho : g.Occurs owner before medium) : Within g token medium

/-- The medium stands at two places of the cases that the token leads to, or is the token itself. -/
def ComesAgain (g : Grammar) (token medium : NodeId) : Prop :=
  ∃ owner before, g.Within token owner ∧ g.Occurs owner before medium ∧
    (medium = token ∨ ∃ owner' before', g.Within token owner' ∧ g.Occurs owner' before' medium ∧
      (owner', before') ≠ (owner, before))

/-- A case of the one node starts with the other, or with one that begins with it. -/
def Begins (g : Grammar) : NodeId → NodeId → Prop :=
  Relation.ReflTransGen (fun owner head => g.Occurs owner [] head)

/-- The mediums among what comes again in a token. -/
def Loops (g : Grammar) (token medium : NodeId) : Prop :=
  g.ComesAgain token medium ∧ (g.node? medium).any (·.isMedium)

/-- A medium that comes again begins with no other medium that comes again and with no terminal
without a text, and has an empty case if it generates the empty text. -/
structure LoopsPlain (g : Grammar) (token : NodeId) : Prop where
  apart (medium other : NodeId) : g.Loops token medium → g.Loops token other →
    g.Begins medium other → other = medium
  empty (medium : NodeId) : g.Loops token medium → Generates g g.substantial [medium] [] →
    [] ∈ g.casesOf medium
  solid (medium head : NodeId) (n : Node) : g.Loops token medium → g.Begins medium head →
    g.node? head = some n → n.isTerminal → n.name ≠ ""

/-- The class table finds the declared characters of each class in that class. -/
def FindsClasses (g : Grammar) : Prop :=
  ∀ id data, (g.node? id).bind (·.class?) = some data → ∀ c ∈ data.symbols.toList,
    g.classTable.symbolInfo c = .classified data.key

/-- A grammar whose tries can be walked, and whose mediums are merged from their cases. -/
structure Factored (g : Grammar) : Prop where
  linked : g.Linked
  merges (id : NodeId) (n : Node) : g.node? id = some n → n.isMedium → g.Merges id

theorem factored_of_compile {description : GrammarDescription} {options : GrammarOptions}
    {g : Grammar} (h : Grammar.compile description options = .ok g) : g.Factored :=
  ⟨linked_of_compile h, fun _ _ => merges_of_compile h⟩

/-! ### Searching for a generation -/

/-- Whether the nodes generate the text by these cases, as far as a search of this depth finds. -/
def generates? (g : Grammar) (cases : NodeId → List (List NodeId)) :
    Nat → List NodeId → List Char → Bool
  | 0, _, _ => false
  | _ + 1, [], text => text.isEmpty
  | depth + 1, head :: rest, text =>
    match g.node? head with
    | none => false
    | some n =>
      match n.kind, text with
      | .terminal _, text => n.name.toList.isPrefixOf text &&
          generates? g cases depth rest (text.drop n.name.toList.length)
      | .symbolClass data, c :: text => data.symbols.toList.contains c &&
          generates? g cases depth rest text
      | .medium _, text => (cases head).any (fun case => generates? g cases depth (case ++ rest) text)
      | _, _ => false

theorem Generates.split {g : Grammar} {rule : NodeId → List NodeId → Prop} {case rest : List NodeId}
    {text : List Char} (h : Generates g rule (case ++ rest) text) :
    ∃ first more, text = first ++ more ∧ Generates g rule case first ∧
      Generates g rule rest more := by
  induction case generalizing text with
  | nil => exact ⟨[], text, rfl, .nil, h⟩
  | cons head case ih =>
    cases h with
    | terminal hn ht hrest =>
      obtain ⟨first, more, rfl, hfirst, hmore⟩ := ih hrest
      exact ⟨_, more, (List.append_assoc ..).symm, .terminal hn ht hfirst, hmore⟩
    | symbolClass hclass hc hrest =>
      obtain ⟨first, more, rfl, hfirst, hmore⟩ := ih hrest
      exact ⟨_, more, rfl, .symbolClass hclass hc hfirst, hmore⟩
    | medium hcase h hrest =>
      obtain ⟨first, more, rfl, hfirst, hmore⟩ := ih hrest
      exact ⟨_, more, (List.append_assoc ..).symm, .medium hcase h hfirst, hmore⟩

/-- What a search finds is generated. -/
theorem generates_of_search {g : Grammar} {rule : NodeId → List NodeId → Prop}
    {cases : NodeId → List (List NodeId)} (hrule : ∀ id, ∀ case ∈ cases id, rule id case) {depth : Nat}
    {case : List NodeId} {text : List Char} (h : g.generates? cases depth case text) :
    Generates g rule case text := by
  induction depth generalizing case text with
  | zero => cases h
  | succ depth ih =>
    cases case with
    | nil =>
      obtain rfl := List.isEmpty_iff.1 h
      exact .nil
    | cons head rest =>
      unfold generates? at h
      split at h
      next => cases h
      next n hn =>
        split at h
        next data hk =>
          obtain ⟨hstart, hrest⟩ := Bool.and_eq_true_iff.1 h
          obtain ⟨more, rfl⟩ := List.isPrefixOf_iff_prefix.1 hstart
          rw [List.drop_left] at hrest
          exact .terminal hn (by simp [Node.isTerminal, Node.terminal?, hk]) (ih hrest)
        next data c text hk =>
          obtain ⟨hc, hrest⟩ := Bool.and_eq_true_iff.1 h
          exact .symbolClass (by simp [hn, Node.class?, hk]) (List.contains_iff_mem.1 hc) (ih hrest)
        next =>
          obtain ⟨case, hcase, hsearch⟩ := List.any_eq_true.1 h
          obtain ⟨first, more, rfl, hfirst, hmore⟩ := (ih hsearch).split
          exact .medium (hrule head case hcase) hfirst hmore
        next => cases h

/-! ### Checking classes -/

/-- Whether all declared characters are found in the class that declares them. -/
def findsClasses? (g : Grammar) : Bool :=
  g.nodeList.all (fun n => n.class?.all (fun data => data.symbols.toList.all
    (fun c => decide (g.classTable.symbolInfo c = .classified data.key))))

theorem findsClasses_of_check {g : Grammar} (h : g.findsClasses?) : g.FindsClasses := by
  intro id data hclass c hc
  obtain ⟨n, hn, hdata⟩ := Option.bind_eq_some_iff.1 hclass
  have hmem : n ∈ g.nodeList := Array.mem_toList_iff.2 (Array.mem_of_getElem? hn)
  have hall := List.all_eq_true.1 h n hmem
  rw [hdata, Option.all_some] at hall
  exact of_decide_eq_true (List.all_eq_true.1 hall c hc)

/-! ### Checking loops -/

/-- The places of a case, with the node that stands at each. -/
def placesOf : List NodeId → List (List NodeId × NodeId)
  | [] => []
  | head :: rest => ([], head) :: (placesOf rest).map (fun e => (head :: e.1, e.2))

/-- The places of all cases. -/
def places (g : Grammar) : List (NodeId × List NodeId × NodeId) :=
  (List.range g.nodes.size).flatMap (fun owner =>
    (g.casesOf owner).flatMap (fun case => (placesOf case).map (fun e => (owner, e))))

/-- Whether a medium is the token or stands at two places, be they in the token or not. -/
def mayLoop (g : Grammar) (token medium : NodeId) : Bool :=
  (g.node? medium).any (·.isMedium) && (medium == token ||
    g.places.any (fun p => g.places.any (fun q => p.2.2 == medium && q.2.2 == medium && p != q)))

/-- Nodes together with what they begin with, to a depth. -/
def begun (g : Grammar) : Nat → List NodeId → List NodeId
  | 0, nodes => nodes
  | depth + 1, nodes => begun g depth
      (nodes ++ (nodes.flatMap (fun id => (g.casesOf id).filterMap (·.head?))).filter
        (fun head => !nodes.contains head))

/-- Whether the nodes have all that they begin with among them. -/
def closedUnderHeads (g : Grammar) (nodes : List NodeId) : Bool :=
  nodes.all (fun id => ((g.casesOf id).filterMap (·.head?)).all nodes.contains)

/-- Whether a medium that may come again begins as it should. -/
def loopsPlainAt (g : Grammar) (token medium : NodeId) (nodes : List NodeId) : Bool :=
  nodes.contains medium && g.closedUnderHeads nodes &&
    nodes.all (fun id => (id == medium || !g.mayLoop token id) &&
      !(g.node? id).any (fun n => n.isTerminal && n.name == "")) &&
    ((g.casesOf medium).contains [] || nodes.all (fun id => !(g.casesOf id).contains []))

/-- Whether all mediums that may come again begin as they should. -/
def loopsPlain? (g : Grammar) (token : NodeId) : Bool :=
  (List.range g.nodes.size).all (fun medium =>
    !g.mayLoop token medium || g.loopsPlainAt token medium (g.begun g.nodes.size [medium]))

section Check

variable {g : Grammar} {token medium owner id head : NodeId} {before : List NodeId}
  {nodes : List NodeId}

theorem lt_size_of_casesOf {case : List NodeId} (h : case ∈ g.casesOf id) : id < g.nodes.size := by
  refine Nat.lt_of_not_le (fun hle => ?_)
  simp [casesOf, node?, Array.getElem?_eq_none hle] at h

theorem mem_placesOf (before : List NodeId) (head : NodeId) (rest : List NodeId) :
    (before, head) ∈ placesOf (before ++ head :: rest) := by
  induction before with
  | nil => exact List.mem_cons_self
  | cons first before ih => exact List.mem_cons_of_mem _ (List.mem_map.2 ⟨_, ih, rfl⟩)

theorem Occurs.mem_places (h : g.Occurs owner before medium) : (owner, before, medium) ∈ g.places := by
  obtain ⟨case, hcase, more, rfl⟩ := h
  refine List.mem_flatMap.2 ⟨owner, List.mem_range.2 (lt_size_of_casesOf hcase), ?_⟩
  refine List.mem_flatMap.2 ⟨_, hcase, List.mem_map.2 ⟨(before, medium), ?_, rfl⟩⟩
  rw [List.append_assoc]
  exact mem_placesOf before medium more

theorem mayLoop_of_loops (h : g.Loops token medium) : g.mayLoop token medium := by
  obtain ⟨⟨owner, before, -, ho, hagain⟩, hm⟩ := h
  refine Bool.and_eq_true_iff.2 ⟨hm, Bool.or_eq_true_iff.2 ?_⟩
  refine hagain.imp (fun he => beq_iff_eq.2 he) ?_
  rintro ⟨owner', before', -, ho', hne⟩
  refine List.any_eq_true.2 ⟨_, ho.mem_places, List.any_eq_true.2 ⟨_, ho'.mem_places, ?_⟩⟩
  simp only [BEq.rfl, Bool.and_self, Bool.true_and, bne_iff_ne]
  rintro heq
  obtain ⟨rfl, hrest⟩ := Prod.mk.inj heq
  obtain ⟨rfl, -⟩ := Prod.mk.inj hrest
  exact hne rfl

theorem mem_of_closedUnderHeads {case : List NodeId} (h : g.closedUnderHeads nodes) (hid : id ∈ nodes)
    (hcase : case ∈ g.casesOf id) (hhead : case.head? = some head) : head ∈ nodes := by
  have hall := List.all_eq_true.1 (List.all_eq_true.1 h id hid)
  exact List.contains_iff_mem.1 (hall head (List.mem_filterMap.2 ⟨case, hcase, hhead⟩))

theorem mem_of_begins (h : g.closedUnderHeads nodes) (hmedium : medium ∈ nodes)
    (hb : g.Begins medium head) : head ∈ nodes := by
  induction hb with
  | refl => exact hmedium
  | tail _ ho ih =>
    obtain ⟨case, hcase, more, rfl⟩ := ho
    exact mem_of_closedUnderHeads h ih hcase rfl

/-- Nodes that begin neither with an empty case nor with a terminal without a text generate a
text. -/
theorem ne_nil_of_generates {rule : NodeId → List NodeId → Prop} {case : List NodeId} {text : List Char}
    (h : g.closedUnderHeads nodes) (hrule : ∀ id case, rule id case → case ∈ g.casesOf id)
    (hcases : ∀ id ∈ nodes, [] ∉ g.casesOf id)
    (hname : ∀ id ∈ nodes, ∀ n, g.node? id = some n → n.isTerminal → n.name ≠ "")
    (hhead : case.head? = some head) (hmem : head ∈ nodes) (hg : Generates g rule case text) :
    text ≠ [] := by
  induction hg generalizing head with
  | nil => cases hhead
  | terminal hn ht _ _ =>
    cases hhead
    refine fun he => hname _ hmem _ hn ht (String.toList_eq_nil_iff.1 ?_)
    exact (List.append_eq_nil_iff.1 he).1
  | symbolClass => exact List.cons_ne_nil _ _
  | @medium _ case _ _ _ hcase _ _ ih _ =>
    cases hhead
    cases hfirst : case.head? with
    | none =>
      obtain rfl := List.head?_eq_none_iff.1 hfirst
      exact absurd (hrule _ _ hcase) (hcases _ hmem)
    | some first =>
      have hin := mem_of_closedUnderHeads h hmem (hrule _ _ hcase) hfirst
      exact fun he => ih hfirst hin (List.append_eq_nil_iff.1 he).1

theorem loopsPlainAt_iff : g.loopsPlainAt token medium nodes ↔ medium ∈ nodes ∧
    g.closedUnderHeads nodes ∧
    (∀ id ∈ nodes, (id = medium ∨ ¬g.mayLoop token id) ∧
      ∀ n, g.node? id = some n → n.isTerminal → n.name ≠ "") ∧
    ([] ∈ g.casesOf medium ∨ ∀ id ∈ nodes, [] ∉ g.casesOf id) := by
  have hname (id : NodeId) : (g.node? id).any (fun n => n.isTerminal && n.name == "") = false ↔
      ∀ n, g.node? id = some n → n.isTerminal → n.name ≠ "" := by
    cases g.node? id <;> simp
  simp [loopsPlainAt, hname, and_assoc]

/-- What passes the check has plain loops. -/
theorem loopsPlain_of_check (h : g.loopsPlain? token) : g.LoopsPlain token := by
  have hat {medium : NodeId} (hl : g.Loops token medium) :
      ∃ nodes, g.loopsPlainAt token medium nodes := by
    have hlt : medium < g.nodes.size := by
      refine Nat.lt_of_not_le (fun hle => ?_)
      have hm := hl.2
      simp [node?, Array.getElem?_eq_none hle] at hm
    have hall := List.all_eq_true.1 h medium (List.mem_range.2 hlt)
    rw [mayLoop_of_loops hl] at hall
    exact ⟨_, hall⟩
  refine ⟨fun medium other hl hl' hb => ?_, fun medium hl hgen => ?_,
    fun medium head n hl hb hn ht => ?_⟩
  · obtain ⟨nodes, hp⟩ := hat hl
    obtain ⟨hmem, hclosed, hnodes, -⟩ := loopsPlainAt_iff.1 hp
    exact (hnodes other (mem_of_begins hclosed hmem hb)).1.resolve_right
      (fun hn => hn (mayLoop_of_loops hl'))
  · obtain ⟨nodes, hp⟩ := hat hl
    obtain ⟨hmem, hclosed, hnodes, hempty⟩ := loopsPlainAt_iff.1 hp
    refine hempty.resolve_right (fun hcases => ?_)
    exact ne_nil_of_generates hclosed (fun _ _ hc => hc.1) hcases (fun id hid => (hnodes id hid).2)
      rfl hmem hgen rfl
  · obtain ⟨nodes, hp⟩ := hat hl
    obtain ⟨hmem, hclosed, hnodes, -⟩ := loopsPlainAt_iff.1 hp
    exact (hnodes head (mem_of_begins hclosed hmem hb)).2 n hn ht

end Check

end Syntagma.Grammar
