import Syntagma.Proofs.Grammar.Generation
import Syntagma.Proofs.Symbol.Narrowing

/-! Texts that nodes write in front of what is left of them. White delimiters inside terminals are
left out, as tokenization never reads them. Where loops stand alone, nothing else goes on like a
medium that comes again wherever a token has come to it. -/

namespace Syntagma.Grammar

/-- The text without the white delimiters in it. -/
def visible (g : Grammar) (text : List Char) : List Char :=
  text.filter (fun c => g.classTable.symbolInfo c != .whiteDelimiter)

/-- The nodes generate the text by some of their cases, up to what is left of them. -/
inductive Writes (g : Grammar) : List NodeId → List Char → List NodeId → Prop where
  | refl (nodes : List NodeId) : Writes g nodes [] nodes
  | terminal {head : NodeId} {rest last : List NodeId} {text : List Char} {n : Node}
    (hn : g.node? head = some n) (ht : n.isTerminal) (h : Writes g rest text last) :
    Writes g (head :: rest) (g.visible n.name.toList ++ text) last
  | symbolClass {head : NodeId} {rest last : List NodeId} {c : Char} {text : List Char}
    {data : ClassData} (hclass : (g.node? head).bind (·.class?) = some data)
    (hc : c ∈ data.symbols.toList) (h : Writes g rest text last) :
    Writes g (head :: rest) (c :: text) last
  | medium {head : NodeId} {case rest last : List NodeId} {text : List Char}
    (hcase : case ∈ g.casesOf head) (h : Writes g (case ++ rest) text last) :
    Writes g (head :: rest) text last

namespace Writes

variable {g : Grammar} {nodes rest last : List NodeId} {text more : List Char}

theorem trans (h : g.Writes nodes text rest) (h' : g.Writes rest more last) :
    g.Writes nodes (text ++ more) last := by
  induction h with
  | refl => exact h'
  | terminal hn ht _ ih =>
    rw [List.append_assoc]
    exact .terminal hn ht (ih h')
  | symbolClass hclass hc _ ih => exact .symbolClass hclass hc (ih h')
  | medium hcase _ ih => exact .medium hcase (ih h')

theorem of_mem_casesOf {medium : NodeId} {case : List NodeId} (h : case ∈ g.casesOf medium) :
    g.Writes [medium] [] case := by
  have hrefl : g.Writes (case ++ []) [] case := (List.append_nil case).symm ▸ .refl case
  exact .medium h hrefl

/-- Nodes behind those that write stay where they are. -/
theorem append_right (h : g.Writes nodes text last) (more : List NodeId) :
    g.Writes (nodes ++ more) text (last ++ more) := by
  induction h with
  | refl => exact .refl _
  | terminal hn ht _ ih => exact .terminal hn ht ih
  | symbolClass hclass hc _ ih => exact .symbolClass hclass hc ih
  | medium hcase _ ih =>
    rw [List.append_assoc] at ih
    exact .medium hcase ih

/-- What is left of a token stands in the cases that it leads to. -/
theorem within {token : NodeId} (h : g.Writes nodes text last) (hn : ∀ id ∈ nodes, g.Within token id) :
    ∀ id ∈ last, g.Within token id := by
  induction h with
  | refl => exact hn
  | terminal _ _ _ ih => exact ih (fun id hid => hn id (List.mem_cons_of_mem _ hid))
  | symbolClass _ _ _ ih => exact ih (fun id hid => hn id (List.mem_cons_of_mem _ hid))
  | @medium head case rest _ _ hcase _ ih =>
    refine ih (fun id hid => ?_)
    rcases List.mem_append.1 hid with hid | hid
    · obtain ⟨before, behind, rfl⟩ := List.append_of_mem hid
      have hp : before ++ [id] <+: before ++ id :: behind := ⟨behind, by simp⟩
      exact .step (hn head List.mem_cons_self) ⟨_, hcase, hp⟩
    · exact hn id (List.mem_cons_of_mem _ hid)

end Writes

/-- Every declared class has characters, and the class table finds these in it and no others. -/
def ClassesExact (g : Grammar) : Prop :=
  ∀ id data, (g.node? id).bind (·.class?) = some data → data.symbols ≠ "" ∧
    ∀ c, g.classTable.symbolInfo c = .classified data.key ↔ c ∈ data.symbols.toList

theorem ClassesExact.findsClasses {g : Grammar} (h : g.ClassesExact) : g.FindsClasses :=
  fun id data hclass c hc => ((h id data hclass).2 c).2 hc

/-- Whether all declared classes have characters, and the table finds these in them and no
others. -/
def classesExact? (g : Grammar) : Bool :=
  g.findsClasses? && g.nodeList.all (fun n => n.class?.all (fun data => data.symbols != "" &&
    g.classTable.symbolClasses.all
      (fun k => k.name != data.key || k.symbols.all data.symbols.toList.contains)))

theorem classesExact_of_check {g : Grammar} (h : g.classesExact?) : g.ClassesExact := by
  obtain ⟨hfound, hall⟩ := Bool.and_eq_true_iff.1 h
  intro id data hclass
  obtain ⟨n, hn, hdata⟩ := Option.bind_eq_some_iff.1 hclass
  have hmem : n ∈ g.nodeList := Array.mem_toList_iff.2 (Array.mem_of_getElem? hn)
  have hone := List.all_eq_true.1 hall n hmem
  rw [hdata, Option.all_some] at hone
  obtain ⟨hne, hothers⟩ := Bool.and_eq_true_iff.1 hone
  refine ⟨bne_iff_ne.1 hne, fun c => ⟨fun hc => ?_, findsClasses_of_check hfound id data hclass c⟩⟩
  have hname := Narrowing.className?_symbolInfo g.classTable c
  rw [hc] at hname
  obtain ⟨k, hk, hkey, hck⟩ := SymbolClass.exists_of_classOf hname.symm
  rcases Bool.or_eq_true_iff.1 (List.all_eq_true.1 hothers k hk) with hother | hsymbols
  · exact absurd hkey (bne_iff_ne.1 hother)
  · exact List.contains_iff_mem.1 (List.all_eq_true.1 hsymbols c hck)

section Complete

variable {g : Grammar} {nodes last : List NodeId} {text : List Char}

theorem visible_append (g : Grammar) (text more : List Char) :
    g.visible (text ++ more) = g.visible text ++ g.visible more := List.filter_append _ _

/-- The characters of classes are no white delimiters. -/
theorem visible_cons (hexact : g.ClassesExact) {head : NodeId} {data : ClassData}
    (hclass : (g.node? head).bind (·.class?) = some data) {c : Char} (hc : c ∈ data.symbols.toList)
    (text : List Char) : g.visible (c :: text) = c :: g.visible text := by
  have hinfo := hexact.findsClasses head data hclass c hc
  exact List.filter_cons_of_pos (by simp [hinfo])

/-- What nodes write to their end is generated, but for white delimiters. -/
theorem Writes.exists_generates (h : g.Writes nodes text last) (hexact : g.ClassesExact)
    (hlast : last = []) : ∃ full, Generates g g.published nodes full ∧ text = g.visible full := by
  induction h with
  | refl =>
    subst hlast
    exact ⟨[], .nil, rfl⟩
  | terminal hn ht _ ih =>
    obtain ⟨full, hfull, rfl⟩ := ih hlast
    exact ⟨_, .terminal hn ht hfull, (g.visible_append _ _).symm⟩
  | symbolClass hclass hc _ ih =>
    obtain ⟨full, hfull, rfl⟩ := ih hlast
    exact ⟨_, .symbolClass hclass hc hfull, (visible_cons hexact hclass hc full).symm⟩
  | medium hcase _ ih =>
    obtain ⟨_, hfull, rfl⟩ := ih hlast
    obtain ⟨first, more, rfl, hfirst, hmore⟩ := hfull.split
    exact ⟨_, .medium hcase hfirst hmore, rfl⟩

/-- What nodes generate they write to their end, but for white delimiters. -/
theorem Generates.writes (h : Generates g g.published nodes text) (hexact : g.ClassesExact) :
    g.Writes nodes (g.visible text) [] := by
  induction h with
  | nil => exact .refl []
  | terminal hn ht _ ih =>
    rw [visible_append]
    exact .terminal hn ht ih
  | symbolClass hclass hc _ ih =>
    rw [visible_cons hexact hclass hc]
    exact .symbolClass hclass hc ih
  | medium hcase _ _ ih ihrest =>
    rw [visible_append]
    exact .medium hcase ((ih.append_right _).trans ihrest)

end Complete

/-! ### Loops -/

/-- The nodes may write a text that starts with the character. -/
def Starts (g : Grammar) (nodes : List NodeId) (c : Char) : Prop :=
  ∃ more last, g.Writes nodes (c :: more) last

/-- The token writes the text in front of a medium that comes again in it and may start with the
character. -/
structure Comes (g : Grammar) (token medium : NodeId) (before : List Char) (c : Char) : Prop where
  loops : g.Loops token medium
  writes : g.Writes [token] before [medium]
  starts : g.Starts [medium] c

/-- Where a medium that comes again may begin with a character, no other token goes on with it, and
the token itself goes on only as the medium does. -/
structure LoopsAlone (g : Grammar) : Prop where
  alone {token other : Node} {medium : NodeId} {before rest : List Char} {c : Char}
    {last : List NodeId} : token ∈ g.tokens → other ∈ g.tokens → g.Comes token.id medium before c →
    g.Writes [other.id] (before ++ c :: rest) last → other = token
  closed {token : Node} {medium : NodeId} {before rest : List Char} {c : Char} : token ∈ g.tokens →
    g.Comes token.id medium before c → g.Writes [token.id] (before ++ c :: rest) [] →
    g.Writes [medium] (c :: rest) []

/-- No medium that a token leads to has a case twice, unless the case begins a longer one. -/
def Unrepeated (g : Grammar) : Prop :=
  ∀ token ∈ g.tokens, ∀ medium, g.Within token.id medium → ∀ case, ¬Repeated (g.casesOf medium) case

/-- Then what the trie of such a medium spells is one of its cases. -/
theorem Unrepeated.mem_casesOf {g : Grammar} (h : g.Unrepeated) (hg : g.Factored) {token : Node}
    (ht : token ∈ g.tokens) {medium : NodeId} {n : Node} (hw : g.Within token.id medium)
    (hn : g.node? medium = some n) (hm : n.isMedium) {case : List NodeId}
    (hs : g.Spells medium case) : case ∈ g.casesOf medium :=
  ((hg.merges medium n hn hm).mem_or_repeated hs).resolve_right
    (fun ⟨a, ha⟩ => h token ht medium hw (case ++ [a]) ha)

end Syntagma.Grammar
