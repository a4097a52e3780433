import Syntagma.Proofs.Analysis.TrieLanguage
import Syntagma.Proofs.Grammar.Planting
import Syntagma.Proofs.Grammar.Productions

/-! The language of tries with loops. A position that is entered can have a loop behind it, which
goes through tails again and again. Read as productions, the loop gives the position a further case
for each tail: itself, and then the tail. -/

namespace Syntagma.Grammar

variable {g : Grammar} {place head loop tails : NodeId} {case tail u v w : List NodeId}

/-- The trie of the position spells the case. -/
def Spells (g : Grammar) (place : NodeId) (case : List NodeId) : Prop :=
  ∃ trie, g.trie? place = some trie ∧ trie.Spells g.trie? case

/-- The loop behind the position repeats what is spelled at `tails`. -/
def Repeats (g : Grammar) (place : NodeId) (tail : List NodeId) : Prop :=
  ∃ trie loop tails, g.trie? place = some trie ∧ trie.recursion = some loop ∧
    g.trie? loop = some (.loop tails loop) ∧ g.Spells tails tail

/-- Whatever stands behind a position is a loop, and its tails have no loop of their own. -/
def Looped (g : Grammar) : Prop :=
  ∀ place trie loop, g.trie? place = some trie → trie.recursion = some loop →
    ∃ tails, g.trie? loop = some (.loop tails loop) ∧ g.isTokenKey tails = false ∧
      ∃ t, g.trie? tails = some t ∧ t.recursion = none

/-- What the tries and their loops spell, as productions. -/
def looping (g : Grammar) : Productions NodeId where
  leaf id := g.isTokenKey id
  rule id case := g.Spells id case ∨ ∃ tail, case = id :: tail ∧ g.Repeats id tail

/-- What a position derives without the loop behind it. -/
def Covers (g : Grammar) (place : NodeId) (w : List NodeId) : Prop :=
  ∃ case, g.Spells place case ∧ g.looping.Derives case w

/-- What entering a position derives: one of its cases, and then one tail after another. -/
inductive Rounds (g : Grammar) (place : NodeId) : List NodeId → Prop where
  | first {w : List NodeId} (h : g.Covers place w) : Rounds g place w
  | again {tail u v : List NodeId} (h : Rounds g place u) (hr : g.Repeats place tail)
    (htail : g.looping.Derives tail v) : Rounds g place (u ++ v)

theorem entered_of_recursion_eq_none {trie : Trie} (ht : g.trie? place = some trie)
    (hr : trie.recursion = none) : g.entered place = [place] := by
  rw [entered, ht, Option.bind_some, hr]
  rfl

theorem entered_of_recursion_eq_some {trie : Trie} (ht : g.trie? place = some trie)
    (hr : trie.recursion = some loop) : g.entered place = [place, loop] := by
  rw [entered, ht, Option.bind_some, hr]
  rfl

theorem Repeats.recursion_isSome (h : g.Repeats place tail) :
    ∃ trie, g.trie? place = some trie ∧ trie.recursion.isSome := by
  obtain ⟨trie, loop, tails, ht, hr, -⟩ := h
  exact ⟨trie, ht, hr ▸ rfl⟩

theorem not_repeats {trie : Trie} (ht : g.trie? place = some trie) (hr : trie.recursion = none) :
    ¬g.Repeats place tail := by
  intro h
  obtain ⟨trie', ht', hr'⟩ := h.recursion_isSome
  obtain rfl := Option.some.inj (ht.symm.trans ht')
  rw [hr] at hr'
  exact Bool.false_ne_true hr'

/-! ### What is derived is spelled -/

theorem Rounds.derives (hk : ¬g.looping.leaf place) (h : g.Rounds place w) :
    g.looping.Derives [place] w := by
  induction h with
  | first h =>
    obtain ⟨case, hs, hd⟩ := h
    exact .of_rule hk (.inl hs) hd
  | @again tail u v _ hr htail ih =>
    exact .of_rule hk (.inr ⟨tail, rfl, hr⟩) (ih.append htail)

/-- A case of a trie and what is covered behind it are covered together. -/
theorem covers_cons {trie : Trie} {next : Option NodeId} (ht : g.trie? place = some trie)
    (hc : (head, next) ∈ trie.cases) (hhead : g.looping.Derives [head] u)
    (hnext : Productions.Concat g.Covers next.toList v) : g.Covers place (u ++ v) := by
  cases next with
  | none =>
    cases hnext
    refine ⟨[head], ⟨trie, ht, none, hc, rfl⟩, ?_⟩
    rwa [List.append_nil]
  | some factor =>
    obtain ⟨case, ⟨inner, hi, hs⟩, hd⟩ := Productions.concat_singleton hnext
    exact ⟨head :: case, ⟨trie, ht, some factor, hc, inner, hi, hs⟩, hhead.append hd⟩

namespace Looped

variable (hl : g.Looped)

include hl

/-- Each time the loop is gone through, a tail is added to what was derived before. -/
theorem rounds_of_loop {trie : Trie} (ht : g.trie? place = some trie)
    (hr : trie.recursion = some loop) (hloop : g.Covers loop v) (h : g.Rounds place u) :
    g.Rounds place (u ++ v) := by
  obtain ⟨tails, hlt, hk, t, htails, hnone⟩ := hl place trie loop ht hr
  obtain ⟨case, ⟨trie', hlt', hs⟩, hd⟩ := hloop
  obtain rfl := Option.some.inj (hlt.symm.trans hlt')
  induction case generalizing u v with
  | nil =>
    cases hd
    rwa [List.append_nil]
  | cons head rest ih =>
    obtain ⟨next, hc, hs⟩ := hs
    obtain ⟨rfl, rfl⟩ := Prod.mk.inj (List.mem_singleton.1 hc)
    obtain ⟨inner, hi, hs⟩ := hs
    obtain rfl := Option.some.inj (hlt.symm.trans hi)
    rw [← List.singleton_append] at hd
    obtain ⟨v₁, v₂, rfl, hd₁, hd₂⟩ := hd.split
    have hleaf : ¬g.looping.leaf head := fun h => Bool.false_ne_true (hk.symm.trans h)
    obtain ⟨tail, hrule, htail⟩ := hd₁.opens hleaf
    have hspells : g.Spells head tail := by
      refine hrule.resolve_right ?_
      rintro ⟨tail', -, hrepeats⟩
      exact not_repeats htails hnone hrepeats
    rw [← List.append_assoc]
    exact ih (.again h ⟨trie, loop, head, ht, hr, hlt, hspells⟩ htail) hd₂ hs

theorem rounds_of_concat (h : Productions.Concat g.Covers (g.entered place) w) :
    g.Rounds place w := by
  unfold entered at h
  cases h with
  | @cons _ _ u v hplace hloop =>
    cases hr : (g.trie? place).bind (·.recursion) with
    | none =>
      rw [hr] at hloop
      cases hloop
      rw [List.append_nil]
      exact .first hplace
    | some loop =>
      rw [hr] at hloop
      obtain ⟨trie, ht, hrec⟩ := Option.bind_eq_some_iff.1 hr
      exact hl.rounds_of_loop ht hrec (Productions.concat_singleton hloop) (.first hplace)

theorem concat_of_derives {places : List NodeId} (h : g.Derives places w) :
    Productions.Concat g.Covers places w := by
  induction h with
  | nil => exact .nil
  | stop ht hi _ ih => exact .cons ⟨[], ⟨_, ht, hi⟩, .nil⟩ ih
  | token ht hc hk _ _ ihnext ih => exact .cons (covers_cons ht hc (.leaf hk .nil) ihnext) ih
  | enter ht hc hk _ _ _ ihhead ihnext ih =>
    have hleaf := fun h => Bool.false_ne_true (hk.symm.trans h)
    have hhead := (hl.rounds_of_concat ihhead).derives hleaf
    rw [← List.append_assoc]
    exact .cons (covers_cons ht hc hhead ihnext) ih

end Looped

/-! ### What is spelled is derived -/

/-- What a head can stand for in the tokens: itself if it is a token key, else what entering it
derives. -/
def Reading (g : Grammar) (head : NodeId) (w : List NodeId) : Prop :=
  (g.isTokenKey head ∧ w = [head]) ∨ (g.isTokenKey head = false ∧ g.Derives (g.entered head) w)

theorem derives_of_spells (hs : g.Spells place case) (hd : Productions.Concat g.Reading case w) :
    g.Derives [place] w := by
  obtain ⟨trie, ht, hs⟩ := hs
  induction case generalizing place trie w with
  | nil =>
    cases hd
    exact .stop ht hs .nil
  | cons head rest ih =>
    obtain ⟨next, hc, hs⟩ := hs
    cases hd with
    | @cons _ _ u v hhead hrest =>
      have hnext : g.Derives next.toList v := by
        cases next with
        | none =>
          obtain rfl : rest = [] := hs
          cases hrest
          exact .nil
        | some factor =>
          obtain ⟨inner, hi, hs⟩ := hs
          exact ih hrest inner hi hs
      rcases hhead with ⟨hk, rfl⟩ | ⟨hk, hhead⟩
      · have h := Derives.token ht hc hk hnext .nil
        rwa [List.append_nil] at h
      · have h := Derives.enter ht hc hk hhead hnext .nil
        rwa [List.append_nil] at h

/-- What a loop derives can be followed by one more of its tails. -/
theorem derives_loop_append (hlt : g.trie? loop = some (.loop tails loop))
    (hk : g.isTokenKey tails = false) (hu : g.Derives [loop] u)
    (hv : g.Derives (g.entered tails) v) : g.Derives [loop] (u ++ v) := by
  have hcase : (tails, some loop) ∈ (Trie.loop tails loop).cases := List.mem_singleton_self _
  have hend : g.Derives [loop] [] := .stop hlt rfl .nil
  generalize hp : [loop] = places at hu
  induction hu with
  | nil => cases hp
  | stop _ _ hrest =>
    obtain ⟨rfl, rfl⟩ := List.cons.inj hp
    cases hrest
    have h := Derives.enter hlt hcase hk hv hend .nil
    simpa using h
  | token ht hc hkey _ _ =>
    obtain ⟨rfl, rfl⟩ := List.cons.inj hp
    obtain rfl := Option.some.inj (hlt.symm.trans ht)
    obtain ⟨rfl, -⟩ := Prod.mk.inj (List.mem_singleton.1 hc)
    exact absurd (hk.symm.trans hkey) Bool.false_ne_true
  | enter ht hc _ hhead _ hrest _ ihnext =>
    obtain ⟨rfl, rfl⟩ := List.cons.inj hp
    obtain rfl := Option.some.inj (hlt.symm.trans ht)
    obtain ⟨rfl, rfl⟩ := Prod.mk.inj (List.mem_singleton.1 hc)
    cases hrest
    have h := Derives.enter hlt hcase hk hhead (ihnext rfl) .nil
    simpa using h

namespace Looped

variable (hl : g.Looped)

include hl

theorem derives_entered_of_spells (hs : g.Spells place case)
    (hd : Productions.Concat g.Reading case w) : g.Derives (g.entered place) w := by
  have hplace := derives_of_spells hs hd
  obtain ⟨trie, ht, -⟩ := hs
  cases hr : trie.recursion with
  | none => rwa [entered_of_recursion_eq_none ht hr]
  | some loop =>
    obtain ⟨tails, hlt, -⟩ := hl place trie loop ht hr
    have hend : g.Derives [loop] [] := .stop hlt rfl .nil
    have h := hplace.append hend
    rwa [List.append_nil, List.singleton_append, ← entered_of_recursion_eq_some ht hr] at h

theorem derives_entered_append (hu : g.Derives (g.entered place) u) (hr : g.Repeats place tail)
    (hd : Productions.Concat g.Reading tail v) : g.Derives (g.entered place) (u ++ v) := by
  obtain ⟨trie, loop, tails, ht, hrec, hlt, hs⟩ := hr
  obtain ⟨tails', hlt', hk, t, htails, hnone⟩ := hl place trie loop ht hrec
  obtain ⟨rfl, -⟩ := Prod.mk.inj (List.cons.inj
    (Trie.mk.inj (Option.some.inj (hlt.symm.trans hlt'))).1).1
  rw [entered_of_recursion_eq_some ht hrec, ← List.singleton_append] at hu ⊢
  obtain ⟨u₁, u₂, rfl, hu₁, hu₂⟩ := hu.split
  have htail := derives_of_spells hs hd
  rw [← entered_of_recursion_eq_none htails hnone] at htail
  rw [List.append_assoc]
  exact hu₁.append (derives_loop_append hlt hk hu₂ htail)

/-- Each symbol of a derivation can be read off the tries. -/
theorem concat_of_looping (h : g.looping.Derives case w) :
    Productions.Concat g.Reading case w := by
  refine h.interpret (fun a ha => .inl ⟨ha, rfl⟩) (fun a case w ha hrule hc => ?_)
  refine .inr ⟨Bool.eq_false_iff.2 ha, ?_⟩
  rcases hrule with hs | ⟨tail, rfl, hr⟩
  · exact hl.derives_entered_of_spells hs hc
  · cases hc with
    | cons hself htail =>
      rcases hself with ⟨hk, -⟩ | ⟨-, hself⟩
      · exact absurd hk ha
      · exact hl.derives_entered_append hself hr htail

theorem derives_of_rounds (h : g.Rounds place w) : g.Derives (g.entered place) w := by
  induction h with
  | first h =>
    obtain ⟨case, hs, hd⟩ := h
    exact hl.derives_entered_of_spells hs (hl.concat_of_looping hd)
  | again _ hr htail ih => exact hl.derives_entered_append ih hr (hl.concat_of_looping htail)

/-- Entering a position derives one of its cases and then tails, round after round. -/
theorem derives_entered_iff : g.Derives (g.entered place) w ↔ g.Rounds place w :=
  ⟨fun h => hl.rounds_of_concat (hl.concat_of_derives h), hl.derives_of_rounds⟩

/-- Where no case of a position starts with the position itself, the rounds are those of entering
it in the productions. -/
theorem derives_entered_iff_enters (hplace : ∀ rest, ¬g.Spells place (place :: rest)) :
    g.Derives (g.entered place) w ↔ g.looping.Enters place w := by
  rw [hl.derives_entered_iff]
  constructor
  · intro h
    induction h with
    | first h =>
      obtain ⟨case, hs, hd⟩ := h
      refine .base (.inl hs) (fun hh => ?_) hd
      obtain ⟨rest, rfl⟩ := List.head?_eq_some_iff.1 hh
      exact hplace rest hs
    | again _ hr htail ih => exact .again ih (.inr ⟨_, rfl, hr⟩) htail
  · intro h
    induction h with
    | base hrule hh hcase =>
      refine .first ⟨_, hrule.resolve_right ?_, hcase⟩
      rintro ⟨tail, rfl, -⟩
      exact hh rfl
    | again _ hrule htail ih =>
      rcases hrule with hs | ⟨tail', he, hr⟩
      · exact absurd hs (hplace _)
      · obtain ⟨-, rfl⟩ := List.cons.inj he
        exact .again ih hr htail

end Looped

end Syntagma.Grammar
