import Syntagma.Grammar.Branching

/-! What syntax sees of a draft. The shape of a node leaves out what only lexing and later stages
read, so two drafts with the same shapes have the same symbols, alternatives and tries. -/

namespace Syntagma

/-- What a case is made of, whichever node stands for it: a literal, or a definition by name. -/
inductive Symbol where
  | terminal (text : String)
  | named (name : String)
deriving DecidableEq, Inhabited, Repr

def NodeKind.shape : NodeKind → NodeKind
  | .terminal _ => .terminal default
  | .symbolClass _ => .symbolClass default
  | .medium data => .medium { data with token := data.token.map (fun _ => default) }
  | .factor trie => .factor trie

namespace Node

def shape (n : Node) : Node := ⟨n.id, n.name, none, n.kind.shape⟩

/-- The symbol that a node stands for; factors stand for none. -/
def symbol? (n : Node) : Option Symbol :=
  match n.kind with
  | .terminal _ => some (.terminal n.name)
  | .symbolClass _ => some (.named n.name)
  | .medium _ => some (.named n.name)
  | .factor _ => none

def cases (n : Node) : List (List NodeId) := (n.medium?.map (·.cases)).getD []

/-- What a node is, whatever its cases and its trie. -/
def bare (n : Node) : Node :=
  match n.kind with
  | .terminal _ => ⟨n.id, n.name, none, .terminal default⟩
  | .symbolClass _ => ⟨n.id, n.name, none, .symbolClass default⟩
  | .medium data =>
    ⟨n.id, n.name, none, .medium ⟨[], .empty, data.token.map (fun _ => default), data.isSynthetic⟩⟩
  | .factor _ => ⟨n.id, n.name, none, .factor .empty⟩

variable (n : Node)

@[simp] theorem shape_id : n.shape.id = n.id := rfl

@[simp] theorem isTerminal_shape : n.shape.isTerminal = n.isTerminal := by
  obtain ⟨id, name, execClass, kind⟩ := n
  cases kind <;> rfl

@[simp] theorem isMedium_shape : n.shape.isMedium = n.isMedium := by
  obtain ⟨id, name, execClass, kind⟩ := n
  cases kind <;> rfl

@[simp] theorem isDefinedToken_shape : n.shape.isDefinedToken = n.isDefinedToken := by
  obtain ⟨id, name, execClass, kind⟩ := n
  cases kind <;> simp [shape, NodeKind.shape, isDefinedToken, tokenTag?, medium?]

@[simp] theorem isTokenKey_shape : n.shape.isTokenKey = n.isTokenKey := by
  simp [isTokenKey]

@[simp] theorem symbol?_shape : n.shape.symbol? = n.symbol? := by
  obtain ⟨id, name, execClass, kind⟩ := n
  cases kind <;> rfl

@[simp] theorem trie?_shape : n.shape.trie? = n.trie? := by
  obtain ⟨id, name, execClass, kind⟩ := n
  cases kind <;> rfl

@[simp] theorem isMedium_bare : n.bare.isMedium = n.isMedium := by
  obtain ⟨id, name, execClass, kind⟩ := n
  cases kind <;> rfl

@[simp] theorem isTokenKey_bare : n.bare.isTokenKey = n.isTokenKey := by
  obtain ⟨id, name, execClass, kind⟩ := n
  cases kind <;> simp [bare, isTokenKey, isTerminal, isDefinedToken, tokenTag?, medium?, terminal?]

@[simp] theorem symbol?_bare : n.bare.symbol? = n.symbol? := by
  obtain ⟨id, name, execClass, kind⟩ := n
  cases kind <;> rfl

@[simp] theorem cases_shape : n.shape.cases = n.cases := by
  obtain ⟨id, name, execClass, kind⟩ := n
  cases kind <;> rfl

end Node

namespace Draft

def shape? (d : Draft) (id : NodeId) : Option Node := d.nodes[id]?.map (·.shape)

def trie? (d : Draft) (id : NodeId) : Option Trie := (d.shape? id).bind (·.trie?)

def symbol? (d : Draft) (id : NodeId) : Option Symbol := (d.shape? id).bind (·.symbol?)

/-- Whether a token of a script can carry the number. -/
def isTokenKey (d : Draft) (id : NodeId) : Bool := (d.shape? id).any (·.isTokenKey)

variable {d : Draft} {id : NodeId}

theorem shape?_eq_none_iff : d.shape? id = none ↔ d.nodes.size ≤ id := by
  rw [shape?, Option.map_eq_none_iff, Array.getElem?_eq_none_iff]

theorem lt_size_of_shape? {n : Node} (h : d.shape? id = some n) : id < d.nodes.size := by
  refine Nat.lt_of_not_le (fun hle => ?_)
  rw [shape?_eq_none_iff.2 hle] at h
  exact nomatch h

theorem lt_size_of_trie? {t : Trie} (h : d.trie? id = some t) : id < d.nodes.size := by
  obtain ⟨n, hn, -⟩ := Option.bind_eq_some_iff.1 h
  exact lt_size_of_shape? hn

theorem exists_shape? (h : id < d.nodes.size) : ∃ n, d.shape? id = some n :=
  ⟨_, by rw [shape?, Array.getElem?_eq_getElem h, Option.map_some]⟩

theorem casesOf_eq (d : Draft) (id : NodeId) :
    d.casesOf id = ((d.shape? id).map (·.cases)).getD [] := by
  rw [casesOf, shape?]
  cases d.nodes[id]? with
  | none => rfl
  | some n => exact (Node.cases_shape n).symm

theorem casesOf_of_shape? {n : Node} (h : d.shape? id = some n) : d.casesOf id = n.cases := by
  rw [casesOf_eq, h, Option.map_some, Option.getD_some]

theorem lt_size_of_mem_casesOf {case : List NodeId} (h : case ∈ d.casesOf id) :
    id < d.nodes.size := by
  cases hs : d.shape? id with
  | none =>
    rw [casesOf_eq, hs] at h
    exact absurd h List.not_mem_nil
  | some n => exact lt_size_of_shape? hs

theorem casesOf_eq_nil_of_le (h : d.nodes.size ≤ id) : d.casesOf id = [] :=
  List.eq_nil_iff_forall_not_mem.2
    (fun _ hc => absurd (lt_size_of_mem_casesOf hc) (Nat.not_lt.2 h))

theorem lt_size_of_isMedium (h : (d.shape? id).any (·.isMedium)) : id < d.nodes.size := by
  cases hs : d.shape? id with
  | none => simp [hs] at h
  | some n => exact lt_size_of_shape? hs

theorem isSome_trie?_of_isMedium (h : (d.shape? id).any (·.isMedium)) : (d.trie? id).isSome := by
  rw [trie?]
  cases hs : d.shape? id with
  | none => simp [hs] at h
  | some n =>
    rw [hs] at h
    obtain ⟨_, _, _, kind⟩ := n
    cases kind <;> first | rfl | exact nomatch h

/-! ### Adding and changing nodes -/

theorem size_push (d : Draft) (name : String) (execClass : Option String) (kind : NodeKind) :
    (d.push name execClass kind).nodes.size = d.nodes.size + 1 := by
  simp [push]

theorem getElem?_push (d : Draft) (name : String) (execClass : Option String) (kind : NodeKind)
    (i : NodeId) : (d.push name execClass kind).nodes[i]? =
      if i = d.nodes.size then some ⟨d.nodes.size, name, execClass, kind⟩ else d.nodes[i]? := by
  simp [push, Array.getElem?_push, nextId]

theorem shape?_push (d : Draft) (name : String) (execClass : Option String) (kind : NodeKind)
    (i : NodeId) : (d.push name execClass kind).shape? i =
      if i = d.nodes.size then some ⟨d.nodes.size, name, none, kind.shape⟩ else d.shape? i := by
  rw [shape?, getElem?_push]
  split <;> rfl

theorem size_modifyMedium (d : Draft) (id : NodeId) (f : MediumData → MediumData) :
    (d.modifyMedium id f).nodes.size = d.nodes.size := by
  simp [modifyMedium]

/-- Changes the data of a medium and leaves any other node alone. -/
def onMedium (f : MediumData → MediumData) (n : Node) : Node :=
  match n.kind with
  | .medium data => { n with kind := .medium (f data) }
  | _ => n

theorem getElem?_modifyMedium (d : Draft) (id : NodeId) (f : MediumData → MediumData) (i : NodeId) :
    (d.modifyMedium id f).nodes[i]? =
      if i = id then d.nodes[i]?.map (onMedium f) else d.nodes[i]? := by
  change (d.nodes.modify id (onMedium f))[i]? = _
  rw [Array.getElem?_modify]
  by_cases hi : id = i <;> simp [hi, eq_comm]

theorem shape_onMedium {f : MediumData → MediumData}
    (hf : ∀ data, (NodeKind.medium (f data)).shape =
      .medium (f { data with token := data.token.map (fun _ => default) })) (n : Node) :
    (onMedium f n).shape = onMedium f n.shape := by
  obtain ⟨id, name, execClass, kind⟩ := n
  cases kind with
  | medium data => exact congrArg (Node.mk id name none) (hf data)
  | _ => rfl

theorem shape?_setCases (d : Draft) (id : NodeId) (cases : List (List NodeId)) (i : NodeId) :
    (d.setCases id cases).shape? i = if i = id
      then (d.shape? i).map (onMedium (fun data => { data with cases := cases }))
      else d.shape? i := by
  rw [shape?, setCases, getElem?_modifyMedium]
  split
  · rw [shape?, Option.map_map, Option.map_map]
    congr 1
    exact funext (fun n => shape_onMedium (fun _ => rfl) n)
  · rfl

theorem shape?_setTrie (d : Draft) (id : NodeId) (trie : Trie) (i : NodeId) :
    (d.setTrie id trie).shape? i = if i = id
      then (d.shape? i).map (onMedium (fun data => { data with trie := trie }))
      else d.shape? i := by
  rw [shape?, setTrie, getElem?_modifyMedium]
  split
  · rw [shape?, Option.map_map, Option.map_map]
    congr 1
    exact funext (fun n => shape_onMedium (fun _ => rfl) n)
  · rfl

theorem size_setCases (d : Draft) (id : NodeId) (cases : List (List NodeId)) :
    (d.setCases id cases).nodes.size = d.nodes.size :=
  size_modifyMedium d id _

theorem size_setTrie (d : Draft) (id : NodeId) (trie : Trie) :
    (d.setTrie id trie).nodes.size = d.nodes.size :=
  size_modifyMedium d id _

section OnMedium

variable (f : MediumData → MediumData) (n : Node)

@[simp] theorem id_onMedium : (onMedium f n).id = n.id := by
  obtain ⟨id, name, execClass, kind⟩ := n
  cases kind <;> rfl

@[simp] theorem symbol?_onMedium : (onMedium f n).symbol? = n.symbol? := by
  obtain ⟨id, name, execClass, kind⟩ := n
  cases kind <;> rfl

@[simp] theorem isMedium_onMedium : (onMedium f n).isMedium = n.isMedium := by
  obtain ⟨id, name, execClass, kind⟩ := n
  cases kind <;> rfl

@[simp] theorem isFactor_onMedium : (onMedium f n).isFactor = n.isFactor := by
  obtain ⟨id, name, execClass, kind⟩ := n
  cases kind <;> rfl

theorem bare_onMedium (ht : ∀ data, (f data).token = data.token)
    (hs : ∀ data, (f data).isSynthetic = data.isSynthetic) : (onMedium f n).bare = n.bare := by
  obtain ⟨id, name, execClass, kind⟩ := n
  cases kind with
  | medium data => simp [onMedium, Node.bare, ht, hs]
  | _ => rfl

theorem isTokenKey_onMedium (ht : ∀ data, (f data).token = data.token) :
    (onMedium f n).isTokenKey = n.isTokenKey := by
  obtain ⟨id, name, execClass, kind⟩ := n
  cases kind with
  | medium data =>
    simp [onMedium, Node.isTokenKey, Node.isTerminal, Node.isDefinedToken, Node.tokenTag?,
      Node.terminal?, Node.medium?, ht]
  | _ => rfl

theorem trie?_onMedium_of_trie (ht : ∀ data, (f data).trie = data.trie) :
    (onMedium f n).trie? = n.trie? := by
  obtain ⟨id, name, execClass, kind⟩ := n
  cases kind with
  | medium data => simp [onMedium, Node.trie?, ht]
  | _ => rfl

end OnMedium

/-! ### What setting cases leaves alone -/

theorem symbol?_setCases (d : Draft) (id : NodeId) (cases : List (List NodeId)) :
    (d.setCases id cases).symbol? = d.symbol? := by
  funext i
  rw [symbol?, shape?_setCases]
  split
  · rw [symbol?]
    cases d.shape? i <;> simp
  · rfl

theorem isTokenKey_setCases (d : Draft) (id : NodeId) (cases : List (List NodeId)) :
    (d.setCases id cases).isTokenKey = d.isTokenKey := by
  funext i
  rw [isTokenKey, shape?_setCases]
  split
  · rw [isTokenKey]
    cases d.shape? i <;> simp [isTokenKey_onMedium]
  · rfl

theorem casesOf_setCases_of_ne (cases : List (List NodeId)) {i : NodeId} (h : i ≠ id) :
    (d.setCases id cases).casesOf i = d.casesOf i := by
  rw [casesOf_eq, shape?_setCases, if_neg h, ← casesOf_eq]

/-- The cases after they were set are the new ones or were there before. -/
theorem mem_casesOf_setCases {cases : List (List NodeId)} {i : NodeId} {case : List NodeId}
    (h : case ∈ (d.setCases id cases).casesOf i) : case ∈ cases ∨ case ∈ d.casesOf i := by
  by_cases hi : i = id
  · subst hi
    rw [casesOf_eq, shape?_setCases, if_pos rfl] at h
    cases hs : d.shape? i with
    | none => simp [hs] at h
    | some n =>
      rw [hs] at h
      obtain ⟨_, _, _, kind⟩ := n
      cases kind with
      | medium data => exact .inl h
      | _ => exact absurd h List.not_mem_nil
  · rw [casesOf_setCases_of_ne cases hi] at h
    exact .inr h

theorem casesOf_setCases_self {n : Node} (h : d.shape? id = some n) (hm : n.isMedium)
    (cases : List (List NodeId)) : (d.setCases id cases).casesOf id = cases := by
  rw [casesOf_eq, shape?_setCases, if_pos rfl, h]
  obtain ⟨_, _, _, kind⟩ := n
  cases kind with
  | medium data => rfl
  | _ => exact nomatch hm

theorem trie?_setCases (d : Draft) (id : NodeId) (cases : List (List NodeId)) (i : NodeId) :
    (d.setCases id cases).trie? i = d.trie? i := by
  rw [trie?, shape?_setCases]
  split
  · rw [trie?]
    cases d.shape? i with
    | none => rfl
    | some n => exact trie?_onMedium_of_trie _ n (fun _ => rfl)
  · rfl

/-! ### Growth -/

/-- The later draft has every node of the earlier one, in the same shape. -/
def Grows (d d' : Draft) : Prop := ∀ id n, d.shape? id = some n → d'.shape? id = some n

theorem grows_push (d : Draft) (name : String) (execClass : Option String) (kind : NodeKind) :
    d.Grows (d.push name execClass kind) := by
  intro id n hn
  rw [shape?_push, if_neg (Nat.ne_of_lt (lt_size_of_shape? hn)), hn]

namespace Grows

variable {d d' d'' : Draft}

theorem refl (d : Draft) : d.Grows d := fun _ _ h => h

theorem trans (h : d.Grows d') (h' : d'.Grows d'') : d.Grows d'' :=
  fun id n hn => h' id n (h id n hn)

theorem size_le (h : d.Grows d') : d.nodes.size ≤ d'.nodes.size := by
  refine Nat.le_of_not_lt (fun hlt => ?_)
  obtain ⟨n, hn⟩ := exists_shape? hlt
  exact Nat.lt_irrefl _ (lt_size_of_shape? (h _ n hn))

theorem symbol? (h : d.Grows d') {id : NodeId} {s : Symbol} (hs : d.symbol? id = some s) :
    d'.symbol? id = some s := by
  obtain ⟨n, hn, hs⟩ := Option.bind_eq_some_iff.1 hs
  exact Option.bind_eq_some_iff.2 ⟨n, h id n hn, hs⟩

theorem trie? (h : d.Grows d') {id : NodeId} {trie : Trie} (ht : d.trie? id = some trie) :
    d'.trie? id = some trie := by
  obtain ⟨n, hn, ht⟩ := Option.bind_eq_some_iff.1 ht
  exact Option.bind_eq_some_iff.2 ⟨n, h id n hn, ht⟩

theorem casesOf (h : d.Grows d') {id : NodeId} (hid : id < d.nodes.size) :
    d'.casesOf id = d.casesOf id := by
  obtain ⟨n, hn⟩ := exists_shape? hid
  rw [casesOf_of_shape? hn, casesOf_of_shape? (h id n hn)]

end Grows

/-- The later draft has every node of the earlier one, with other cases and tries perhaps. -/
def Keeps (d d' : Draft) : Prop :=
  ∀ id n, d.shape? id = some n → ∃ n', d'.shape? id = some n' ∧ n'.bare = n.bare

theorem Grows.keeps {d d' : Draft} (h : d.Grows d') : d.Keeps d' :=
  fun id n hn => ⟨n, h id n hn, rfl⟩

namespace Keeps

variable {d d' d'' : Draft}

theorem refl (d : Draft) : d.Keeps d := (Grows.refl d).keeps

theorem trans (h : d.Keeps d') (h' : d'.Keeps d'') : d.Keeps d'' := by
  intro id n hn
  obtain ⟨n', hn', he'⟩ := h id n hn
  obtain ⟨n'', hn'', he''⟩ := h' id n' hn'
  exact ⟨n'', hn'', he''.trans he'⟩

theorem setCases (d : Draft) (id : NodeId) (cases : List (List NodeId)) :
    d.Keeps (d.setCases id cases) := by
  intro i n hn
  rw [shape?_setCases, hn]
  split
  · exact ⟨_, rfl, bare_onMedium _ n (fun _ => rfl) (fun _ => rfl)⟩
  · exact ⟨n, rfl, rfl⟩

theorem setTrie (d : Draft) (id : NodeId) (trie : Trie) : d.Keeps (d.setTrie id trie) := by
  intro i n hn
  rw [shape?_setTrie, hn]
  split
  · exact ⟨_, rfl, bare_onMedium _ n (fun _ => rfl) (fun _ => rfl)⟩
  · exact ⟨n, rfl, rfl⟩

theorem size_le (h : d.Keeps d') : d.nodes.size ≤ d'.nodes.size := by
  refine Nat.le_of_not_lt (fun hlt => ?_)
  obtain ⟨n, hn⟩ := exists_shape? hlt
  obtain ⟨n', hn', -⟩ := h _ n hn
  exact Nat.lt_irrefl _ (lt_size_of_shape? hn')

variable {id : NodeId}

theorem symbol? (h : d.Keeps d') (hid : id < d.nodes.size) : d'.symbol? id = d.symbol? id := by
  obtain ⟨n, hn⟩ := exists_shape? hid
  obtain ⟨n', hn', he⟩ := h id n hn
  rw [Draft.symbol?, Draft.symbol?, hn, hn', Option.bind_some, Option.bind_some,
    ← Node.symbol?_bare, he, Node.symbol?_bare]

theorem isTokenKey (h : d.Keeps d') (hid : id < d.nodes.size) :
    d'.isTokenKey id = d.isTokenKey id := by
  obtain ⟨n, hn⟩ := exists_shape? hid
  obtain ⟨n', hn', he⟩ := h id n hn
  rw [Draft.isTokenKey, Draft.isTokenKey, hn, hn', Option.any_some, Option.any_some,
    ← Node.isTokenKey_bare, he, Node.isTokenKey_bare]

theorem isMedium (h : d.Keeps d') (hid : id < d.nodes.size) :
    (d'.shape? id).any (·.isMedium) = (d.shape? id).any (·.isMedium) := by
  obtain ⟨n, hn⟩ := exists_shape? hid
  obtain ⟨n', hn', he⟩ := h id n hn
  rw [hn, hn', Option.any_some, Option.any_some, ← Node.isMedium_bare, he, Node.isMedium_bare]

end Keeps

end Draft

end Syntagma
