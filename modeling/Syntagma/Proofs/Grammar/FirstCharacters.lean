import Syntagma.Proofs.Grammar.Writing

/-! First characters. Where mediums stand last in the cases that a token leads to, and first
characters tell the cases of each medium apart, the text that was written decides what is left of
the token. So a medium that comes again goes on alone, if first characters tell the tokens apart as
well. -/

namespace Syntagma.Grammar

variable {g : Grammar} {nodes rest last : List NodeId} {text : List Char} {head : NodeId} {c : Char}

/-- Only the last of the nodes has cases. -/
def Trailing (g : Grammar) (nodes : List NodeId) : Prop := ∀ id ∈ nodes.dropLast, g.casesOf id = []

/-- In the cases that a token leads to, mediums stand last, and first characters tell the cases of a
medium apart and the tokens from each other. -/
structure ToldApart (g : Grammar) : Prop where
  tokens {token other : Node} {c : Char} : token ∈ g.tokens → other ∈ g.tokens →
    g.Starts [token.id] c → g.Starts [other.id] c → other = token
  cases {token : Node} {medium : NodeId} {case other : List NodeId} {c : Char} : token ∈ g.tokens →
    g.Within token.id medium → case ∈ g.casesOf medium → other ∈ g.casesOf medium →
    g.Starts case c → g.Starts other c → case = other
  last {token : Node} {medium : NodeId} {case : List NodeId} : token ∈ g.tokens →
    g.Within token.id medium → case ∈ g.casesOf medium → g.Trailing case

theorem Trailing.tail (h : g.Trailing (head :: rest)) : g.Trailing rest := by
  intro id hid
  cases rest with
  | nil => cases hid
  | cons => exact h id (List.mem_cons_of_mem _ hid)

theorem Trailing.eq_nil (h : g.Trailing (head :: rest)) (hcases : g.casesOf head ≠ []) : rest = [] := by
  cases rest with
  | nil => rfl
  | cons => exact absurd (h head List.mem_cons_self) hcases

/-! ### The next node -/

theorem casesOf_eq_nil_of_isTerminal {n : Node} (hn : g.node? head = some n) (ht : n.isTerminal) :
    g.casesOf head = [] := by
  obtain ⟨id, name, execClass, kind⟩ := n
  cases kind with
  | terminal data => rw [casesOf, hn]; rfl
  | _ => cases ht

theorem casesOf_eq_nil_of_class? {data : ClassData}
    (hclass : (g.node? head).bind (·.class?) = some data) : g.casesOf head = [] := by
  obtain ⟨⟨id, name, execClass, kind⟩, hn, hdata⟩ := Option.bind_eq_some_iff.1 hclass
  cases kind with
  | symbolClass data => rw [casesOf, hn]; rfl
  | _ => cases hdata

theorem not_isTerminal_of_class? {n : Node} {data : ClassData} (hn : g.node? head = some n)
    (hclass : (g.node? head).bind (·.class?) = some data) : ¬n.isTerminal := by
  rw [hn, Option.bind_some] at hclass
  obtain ⟨id, name, execClass, kind⟩ := n
  cases kind with
  | symbolClass data => exact Bool.false_ne_true
  | _ => cases hclass

/-- Nodes go on in one way behind a terminal. -/
theorem Writes.of_terminal {n : Node} (h : g.Writes (head :: rest) text [])
    (hn : g.node? head = some n) (ht : n.isTerminal) :
    ∃ more, text = g.visible n.name.toList ++ more ∧ g.Writes rest more [] := by
  cases h with
  | terminal hn' _ h =>
    obtain rfl := Option.some.inj (hn.symm.trans hn')
    exact ⟨_, rfl, h⟩
  | symbolClass hclass _ _ => exact absurd ht (not_isTerminal_of_class? hn hclass)
  | medium hcase _ =>
    rw [casesOf_eq_nil_of_isTerminal hn ht] at hcase
    exact absurd hcase List.not_mem_nil

/-- Nodes go on in one way behind a class. -/
theorem Writes.of_class {data : ClassData} (h : g.Writes (head :: rest) text [])
    (hclass : (g.node? head).bind (·.class?) = some data) :
    ∃ c more, text = c :: more ∧ g.Writes rest more [] := by
  cases h with
  | terminal hn ht _ => exact absurd ht (not_isTerminal_of_class? hn hclass)
  | symbolClass _ _ h => exact ⟨_, _, rfl, h⟩
  | medium hcase _ =>
    rw [casesOf_eq_nil_of_class? hclass] at hcase
    exact absurd hcase List.not_mem_nil

/-- A node with cases goes on by one of them. -/
theorem Writes.of_casesOf (h : g.Writes (head :: rest) text []) (hcases : g.casesOf head ≠ []) :
    ∃ case ∈ g.casesOf head, g.Writes (case ++ rest) text [] := by
  cases h with
  | terminal hn ht _ => exact absurd (casesOf_eq_nil_of_isTerminal hn ht) hcases
  | symbolClass hclass _ _ => exact absurd (casesOf_eq_nil_of_class? hclass) hcases
  | medium hcase h => exact ⟨_, hcase, h⟩

/-- The text that terminals write. -/
def wording (g : Grammar) (nodes : List NodeId) : List Char :=
  nodes.flatMap (fun id => ((g.node? id).map (fun n => g.visible n.name.toList)).getD [])

/-- Terminals write their own text only. -/
theorem Writes.eq_wording (h : g.Writes nodes text [])
    (hall : ∀ id ∈ nodes, (g.node? id).any (·.isTerminal)) : text = g.wording nodes := by
  induction nodes generalizing text with
  | nil =>
    cases h
    rfl
  | cons head rest ih =>
    obtain ⟨n, hn, ht⟩ := (Option.any_eq_true ..).1 (hall head List.mem_cons_self)
    obtain ⟨more, rfl, hmore⟩ := h.of_terminal hn ht
    rw [ih hmore (fun id hid => hall id (List.mem_cons_of_mem _ hid))]
    simp only [wording, List.flatMap_cons, hn, Option.map_some, Option.getD_some]

/-- What starts a text that is written in front of nodes that start with a character. -/
theorem Starts.of_writes {before : List Char} (hs : g.Starts rest c) (hw : g.Writes nodes before rest) :
    ∃ d tail, g.Starts nodes d ∧ ∀ more, before ++ c :: more = d :: (tail ++ more) := by
  obtain ⟨more, last, hm⟩ := hs
  cases before with
  | nil => exact ⟨c, [], ⟨more, last, hw.trans hm⟩, fun _ => rfl⟩
  | cons d before => exact ⟨d, before ++ [c], ⟨before, rest, hw⟩, fun more => by simp⟩

/-! ### What is left -/

theorem Within.of_mem_case {token medium id : NodeId} {case : List NodeId} (h : g.Within token medium)
    (hcase : case ∈ g.casesOf medium) (hid : id ∈ case) : g.Within token id := by
  obtain ⟨before, behind, rfl⟩ := List.append_of_mem hid
  exact .step h ⟨_, hcase, behind, by rw [List.append_assoc]; rfl⟩

/-- What is left of a token behind a text depends on the text alone, if what is left starts with the
next character. -/
theorem ToldApart.left (h : g.ToldApart) {token : Node} (ht : token ∈ g.tokens) {before more : List Char}
    (hw : g.Writes nodes before rest) (hin : ∀ id ∈ nodes, g.Within token.id id)
    (htrailing : g.Trailing nodes) (hstarts : g.Starts rest c)
    (hwhole : g.Writes nodes (before ++ c :: more) []) : g.Writes rest (c :: more) [] := by
  induction hw with
  | refl => exact hwhole
  | @terminal head tail _ _ n hn hterminal _ ih =>
    obtain ⟨text, htext, hwhole⟩ := hwhole.of_terminal hn hterminal
    rw [List.append_assoc] at htext
    obtain rfl := List.append_cancel_left htext
    exact ih (fun id hid => hin id (List.mem_cons_of_mem _ hid))
      htrailing.tail hstarts hwhole
  | @symbolClass head tail _ _ _ data hclass _ _ ih =>
    obtain ⟨d, text, htext, hwhole⟩ := hwhole.of_class hclass
    obtain ⟨rfl, rfl⟩ := List.cons.inj htext
    exact ih (fun id hid => hin id (List.mem_cons_of_mem _ hid))
      htrailing.tail hstarts hwhole
  | @medium head case tail _ before hcase hw ih =>
    have hcases : g.casesOf head ≠ [] := List.ne_nil_of_mem hcase
    -- nothing stands behind a medium
    obtain rfl := htrailing.eq_nil hcases
    obtain ⟨other, hother, hwhole⟩ := hwhole.of_casesOf hcases
    rw [List.append_nil] at hw hwhole ih
    have hwithin := hin head List.mem_cons_self
    obtain ⟨d, tail, hd, htail⟩ := hstarts.of_writes hw
    obtain rfl := h.cases ht hwithin hcase hother hd ⟨_, _, htail more ▸ hwhole⟩
    exact ih (fun id hid => hwithin.of_mem_case hcase hid) (h.last ht hwithin hcase) hstarts hwhole

/-- First characters that tell everything apart leave loops alone. -/
theorem ToldApart.loopsAlone (h : g.ToldApart) : g.LoopsAlone where
  alone ht ho hcomes hw := by
    obtain ⟨d, tail, hd, htail⟩ := hcomes.starts.of_writes hcomes.writes
    exact h.tokens ht ho hd ⟨_, _, htail _ ▸ hw⟩
  closed ht hcomes hw := by
    refine h.left ht hcomes.writes (fun id hid => ?_) (fun id hid => absurd hid List.not_mem_nil)
      hcomes.starts hw
    obtain rfl := List.mem_singleton.1 hid
    exact .self

/-! ### Checking -/

/-- The characters that nodes may start with, as far as a search of this depth finds. -/
def starts? (g : Grammar) : Nat → List NodeId → Option (List Char)
  | _, [] => some []
  | 0, _ => none
  | depth + 1, head :: rest =>
    match g.node? head with
    | none => some []
    | some n =>
      match n.kind with
      | .terminal _ => (g.visible n.name.toList).head?.map (fun c => [c])
      | .symbolClass data => some data.symbols.toList
      | .medium data =>
        if rest.isEmpty then (data.cases.mapM (g.starts? depth)).map List.flatten else none
      | .factor _ => some []

theorem exists_of_mem_mapM {α β : Type} {f : α → Option β} {l : List α} {found : List β} {a : α}
    (h : l.mapM f = some found) (ha : a ∈ l) : ∃ b ∈ found, f a = some b := by
  induction l generalizing found with
  | nil => cases ha
  | cons first l ih =>
    rw [List.mapM_cons] at h
    obtain ⟨b, hb, h⟩ := Option.bind_eq_some_iff.1 h
    obtain ⟨more, hmore, h⟩ := Option.bind_eq_some_iff.1 h
    cases h
    rcases List.mem_cons.1 ha with rfl | ha
    · exact ⟨b, List.mem_cons_self, hb⟩
    · exact (ih hmore ha).imp (fun _ hx => ⟨List.mem_cons_of_mem _ hx.1, hx.2⟩)

/-- What a search finds is all that the nodes start with. -/
theorem Starts.mem_of_search (h : g.Starts nodes c) {depth : Nat} {starts : List Char}
    (hs : g.starts? depth nodes = some starts) : c ∈ starts := by
  obtain ⟨more, last, hw⟩ := h
  induction depth generalizing nodes starts with
  | zero =>
    cases nodes with
    | nil => cases hw
    | cons => cases hs
  | succ depth ih =>
    cases nodes with
    | nil => cases hw
    | cons head rest =>
      simp only [starts?] at hs
      generalize htext : c :: more = text at hw
      cases hw with
      | refl => cases htext
      | @terminal _ _ _ _ n hn ht _ =>
        obtain ⟨id, name, execClass, kind⟩ := n
        cases kind with
        | terminal data =>
          rw [hn] at hs
          obtain ⟨d, hd, rfl⟩ := Option.map_eq_some_iff.1 hs
          obtain ⟨tail, htail⟩ := List.head?_eq_some_iff.1 hd
          rw [htail] at htext
          exact List.mem_singleton.2 (List.cons.inj htext).1
        | _ => cases ht
      | symbolClass hclass hc _ =>
        obtain ⟨⟨id, name, execClass, kind⟩, hn, hdata⟩ := Option.bind_eq_some_iff.1 hclass
        cases kind with
        | symbolClass data =>
          cases hdata
          rw [hn] at hs
          cases hs
          exact (List.cons.inj htext).1 ▸ hc
        | _ => cases hdata
      | @medium _ case _ _ _ hcase hw =>
        subst htext
        cases hn : g.node? head with
        | none =>
          rw [casesOf, hn] at hcase
          cases hcase
        | some n =>
          obtain ⟨id, name, execClass, kind⟩ := n
          rw [casesOf, hn] at hcase
          cases kind with
          | medium data =>
            rw [hn] at hs
            dsimp only at hs
            split at hs
            next hempty =>
              obtain rfl := List.isEmpty_iff.1 hempty
              obtain ⟨found, hfound, rfl⟩ := Option.map_eq_some_iff.1 hs
              obtain ⟨starts, hmem, hstarts⟩ := exists_of_mem_mapM hfound hcase
              rw [List.append_nil] at hw
              exact List.mem_flatten.2 ⟨starts, hmem, ih hstarts hw⟩
            next => cases hs
          | _ => cases hcase

/-- Whether two sequences of nodes are found to start with different characters. -/
def apart? (g : Grammar) (nodes other : List NodeId) : Bool :=
  (g.starts? g.nodes.size nodes).any (fun starts =>
    (g.starts? g.nodes.size other).any (fun others => starts.all (fun c => !others.contains c)))

theorem not_starts_of_apart {other : List NodeId} (h : g.apart? nodes other) (hs : g.Starts nodes c) :
    ¬g.Starts other c := by
  obtain ⟨starts, hstarts, h⟩ := (Option.any_eq_true ..).1 h
  obtain ⟨others, hothers, h⟩ := (Option.any_eq_true ..).1 h
  intro ho
  have hout := List.all_eq_true.1 h c (hs.mem_of_search hstarts)
  rw [List.contains_iff_mem.2 (ho.mem_of_search hothers)] at hout
  cases hout

/-- Nodes together with what stands in their cases, to a depth. -/
def reached (g : Grammar) : Nat → List NodeId → List NodeId
  | 0, nodes => nodes
  | depth + 1, nodes => reached g depth
      (nodes ++ ((nodes.flatMap g.casesOf).flatten.filter (fun id => !nodes.contains id)).eraseDups)

/-- What the tokens lead to. -/
def inTokens (g : Grammar) : List NodeId := g.reached g.nodes.size (g.tokens.map (·.id))

/-- Whether all that the tokens lead to was reached, and passes a check. -/
def checkTokens (g : Grammar) (check : NodeId → Bool) : Bool :=
  g.tokens.all (fun token => g.inTokens.contains token.id) &&
    g.inTokens.all (fun id => check id && (g.casesOf id).all (·.all g.inTokens.contains))

theorem check_of_within {check : NodeId → Bool} (h : g.checkTokens check) {token : Node}
    (ht : token ∈ g.tokens) {id : NodeId} (hw : g.Within token.id id) : check id := by
  obtain ⟨htokens, hnodes⟩ := Bool.and_eq_true_iff.1 h
  have hmem : id ∈ g.inTokens := by
    induction hw with
    | self => exact List.contains_iff_mem.1 (List.all_eq_true.1 htokens token ht)
    | @step owner medium before _ ho ih =>
      obtain ⟨case, hcase, hstart⟩ := ho
      have hcases := (Bool.and_eq_true_iff.1 (List.all_eq_true.1 hnodes owner ih)).2
      have hids := List.all_eq_true.1 (List.all_eq_true.1 hcases case hcase) medium
        (hstart.subset (List.mem_append_right _ List.mem_cons_self))
      exact List.contains_iff_mem.1 hids
  exact (Bool.and_eq_true_iff.1 (List.all_eq_true.1 hnodes id hmem)).1

/-- Whether mediums stand last in the cases of a node, and first characters tell these apart. -/
def casesApart? (g : Grammar) (id : NodeId) : Bool :=
  (g.casesOf id).all (fun case => case.dropLast.all (fun id => (g.casesOf id).isEmpty) &&
    (g.casesOf id).all (fun other => case == other || g.apart? case other))

/-- Whether first characters tell the tokens apart, and the cases in them. -/
def toldApart? (g : Grammar) : Bool :=
  g.tokens.all (fun token =>
      g.tokens.all (fun other => other == token || g.apart? [token.id] [other.id])) &&
    g.checkTokens g.casesApart?

theorem toldApart_of_check (h : g.toldApart?) : g.ToldApart := by
  obtain ⟨htokens, hcases⟩ := Bool.and_eq_true_iff.1 h
  refine ⟨fun {token other c} ht ho hs hs' => ?_,
    fun {token medium case other c} ht hw hc ho hs hs' => ?_,
    fun {token medium case} ht hw hc id hid => ?_⟩
  · have hone := List.all_eq_true.1 (List.all_eq_true.1 htokens token ht) other ho
    rcases Bool.or_eq_true_iff.1 hone with hone | hapart
    · exact beq_iff_eq.1 hone
    · exact absurd hs' (not_starts_of_apart hapart hs)
  · obtain ⟨-, hall⟩ := Bool.and_eq_true_iff.1
      (List.all_eq_true.1 (check_of_within hcases ht hw) case hc)
    rcases Bool.or_eq_true_iff.1 (List.all_eq_true.1 hall other ho) with hone | hapart
    · exact beq_iff_eq.1 hone
    · exact absurd hs' (not_starts_of_apart hapart hs)
  · obtain ⟨hlast, -⟩ := Bool.and_eq_true_iff.1
      (List.all_eq_true.1 (check_of_within hcases ht hw) case hc)
    exact List.isEmpty_iff.1 (List.all_eq_true.1 hlast id hid)

/-- Where no medium has a case twice, none is repeated. -/
theorem unrepeated_of_check (h : g.checkTokens (fun id => decide (g.casesOf id).Nodup)) :
    g.Unrepeated := by
  intro token ht medium hw case hr
  have hnodup := of_decide_eq_true (check_of_within h ht hw)
  exact absurd hr.1 (Nat.not_lt.2 (List.nodup_iff_count_le_one.1 hnodup case))

end Syntagma.Grammar
