import Syntagma.Proofs.Automaton.Unfolding
import Syntagma.Proofs.Automaton.WalkParts

/-! The texts that a token generates are read by its states. Where a medium is met again the links
that were noted of it are added, so the states recognize what the tour through the token follows. It
follows all that the token generates unless a medium that comes again begins with another one: of
that one there may be only a loop, and no links that were noted. -/

namespace Syntagma

namespace TokenWalk

open Synthesis (Plain)

variable {g : Grammar} {token : NodeId} {accept : AcceptToken} {final : TokenWalk} {s : Synthesis}
  {p : Place} {state : StateId} {links : Links} {via : Option NodeId} {medium head : NodeId}
  {case rest : List NodeId} {trie : Trie} {text : List Char}

/-! ### Cases of a medium that was walked -/

theorem isMedium_of_mem_casesOf (h : case ∈ g.casesOf medium) : isMedium g medium := by
  unfold Grammar.casesOf at h
  cases hn : g.node? medium with
  | none => simp [hn] at h
  | some n =>
    cases hm : n.medium? with
    | none => simp [hn, hm] at h
    | some data => simp [isMedium, hn, Node.isMedium, hm]

theorem classOf_of_symbolInfo {name : String} {c : Char}
    (h : g.classTable.symbolInfo c = .classified name) :
    SymbolClass.classOf g.classTable.symbolClasses c = some name := by
  rw [← Narrowing.className?_symbolInfo, h]
  rfl

/-- Where no loop stands behind its trie, a medium spells the cases that count. -/
theorem spells_of_counted (hg : g.Factored) (hcase : counted g medium case)
    (hr : ((g.trie? medium).getD .empty).recursion = none) : g.Spells medium case := by
  obtain ⟨⟨hc, other, ho, hne, hself⟩, hcase⟩ := hcase
  obtain ⟨n, trie, hn, hmedium, ht⟩ := exists_trie_of_isMedium (isMedium_of_mem_casesOf hc)
  rw [ht, Option.getD_some] at hr
  exact ⟨trie, ht, (hg.merges medium n hn hmedium).spells_of_mem ht hr ho hne hself hc hcase⟩

theorem spells_getD (hs : g.Spells medium case) :
    ((g.trie? medium).getD .empty).Spells g.trie? case := by
  obtain ⟨trie, ht, hs⟩ := hs
  rwa [ht, Option.getD_some]

theorem occurs_of_spells (hg : g.Factored) (hm : isMedium g medium)
    (hs : g.Spells medium (head :: rest)) : g.Occurs medium [] head := by
  obtain ⟨n, -, hn, hmedium, -⟩ := exists_trie_of_isMedium hm
  obtain ⟨other, ho, hp⟩ := (hg.merges medium n hn hmedium).exists_of_spells hs
  exact ⟨other, ho, (List.prefix_append [head] rest).trans hp⟩

/-- The trie of a walked medium spells the cases that count. -/
theorem Part.spells (hg : g.Factored) (hf : Finished g token accept final s)
    (h : Part g token accept final
      (.level ⟨medium, []⟩ ((g.trie? medium).getD .empty) state) links)
    (hcase : counted g medium case) : ((g.trie? medium).getD .empty).Spells g.trie? case :=
  spells_getD (spells_of_counted hg hcase (h.level hf).loopless)

/-! ### Texts that the tour follows -/

/-- A walked level recognizes the text. Where the text has to start over the links of a medium, it
does so over what was noted of that one. -/
structure Followed (final : TokenWalk) (s : Synthesis) (via : Option NodeId) (state : StateId)
    (links : Links) (text : List Char) : Prop where
  recognizes : s.Recognizes state text
  overNoted : ∀ medium ∈ via, ∀ noted, final.visited.get? medium = some (some noted) →
    Includes links noted → s.RecognizesBy noted text

theorem followed_of_links (h : s.RecognizesBy links text) (hl : LinksAt s.arena state links) :
    Followed final s via state links text :=
  ⟨h.recognizes hl, fun _ _ _ _ hinc => h.includes hinc⟩

theorem followed_of_accepts (h : (s.arena.tokenOf state).isSome) :
    Followed final s none state links [] :=
  ⟨⟨state, Synthesis.reads_nil s state, h⟩, fun _ hvia => absurd hvia (Option.not_mem_none _)⟩

theorem Followed.nested {nested : Links} (h : Followed final s via state nested text)
    (hi : Includes nested links) : Followed final s via state links text :=
  ⟨h.recognizes, fun medium hvia noted hnoted hinc =>
    h.overNoted medium hvia noted hnoted (hi.trans hinc)⟩

/-- Behind a head the rest is recognized, if the level that follows recognizes it. -/
theorem Part.recognizes_behind {continuation : Option NodeId}
    (hf : Finished g token accept final s)
    (h : Part g token accept final (.behind p continuation state) links)
    (hs : SpellsBehind g continuation rest) (hnil : rest = [] → text = [])
    (hthen : ∀ trie links, Part g token accept final (.level p trie state) links →
      trie.Spells g.trie? rest → s.Recognizes state text) : s.Recognizes state text := by
  rcases h.behind hf hs with ⟨hempty, htoken⟩ | ⟨trie, links, hlevel, hspells⟩
  · rw [hnil hempty]
    exact ⟨state, Synthesis.reads_nil s state, htoken⟩
  · exact hthen trie links hlevel hspells

section Recognized

variable (hf : Finished g token accept final s) (h : Level g token accept final s p trie state links)
  (hs : trie.Spells g.trie? (head :: rest))

include h hs

include hf in
theorem Level.followed_terminal {n : Node} (hn : g.node? head = some n) (ht : n.isTerminal)
    (hsolid : via.isSome → n.name ≠ "") (hplain : Plain g n.name.toList)
    (hnil : rest = [] → text = [])
    (hthen : ∀ trie state links, Part g token accept final (.level (p.past head) trie state) links →
      trie.Spells g.trie? rest → s.Recognizes state text) :
    Followed final s via state links (n.name.toList ++ text) := by
  obtain ⟨continuation, last, behind, hs, hr, hb, hp⟩ := h.terminal hs hn ht
  have hlast := hp.recognizes_behind hf hs hnil (fun trie links => hthen trie last links)
  refine ⟨(hr hplain).recognizes hlast, fun medium hvia noted _ hinc => ?_⟩
  have hne : n.name.toList ≠ [] := fun he =>
    hsolid (Option.isSome_of_mem hvia) (String.toList_eq_nil_iff.1 he)
  exact ((hb hplain hne).includes hinc).recognizes hlast

include hf in
theorem Level.followed_class {data : ClassData} {c : Char} (hclass : classOf? g head = some data)
    (hfound : g.classTable.symbolInfo c = .classified data.key) (hnil : rest = [] → text = [])
    (hthen : ∀ trie state links, Part g token accept final (.level (p.past head) trie state) links →
      trie.Spells g.trie? rest → s.Recognizes state text) :
    Followed final s via state links (c :: text) := by
  obtain ⟨continuation, target, behind, hs, hl, hp⟩ := h.symbolClass hs hclass
  obtain ⟨last, hr, htoken⟩ :=
    hp.recognizes_behind hf hs hnil (fun trie links => hthen trie target links)
  have htakes := hf.sound.narrowed.takes_of_classOf (classOf_of_symbolInfo hfound)
  exact followed_of_links ⟨last, ⟨c, text, data.key, target, rfl, htakes, hl, hr⟩, htoken⟩ h.linked

/-- A medium that is met first was entered, and its links are among those of the level. -/
theorem Level.followed_enter (hm : isMedium g head) (hfirst : ¬MetAgain g token p head)
    (hin : ∀ nested, Part g token accept final
      (.level ⟨head, []⟩ ((g.trie? head).getD .empty) state) nested →
        Followed final s via state nested text) : Followed final s via state links text := by
  obtain ⟨-, ⟨hmet, -⟩ | ⟨nested, hi, hentered⟩⟩ := h.medium hs hm
  · exact absurd hmet hfirst
  · exact (hin nested hentered).nested hi

include hf in
/-- A text that starts over the links of a medium is recognized wherever that one stands: where it
was met again, these links were added. -/
theorem Level.followed_loop (hm : isMedium g head) (hvia : ∀ medium ∈ via, medium = head)
    (hin : ∀ state nested, Part g token accept final
      (.level ⟨head, []⟩ ((g.trie? head).getD .empty) state) nested →
        Followed final s (some head) state nested text) : Followed final s via state links text := by
  have hnotes (noted : Links) (hnoted : final.visited.get? head = some (some noted)) :
      s.RecognizesBy noted text := by
    obtain ⟨origin, hwalked⟩ := hf.entered head noted hnoted
    exact (hin origin noted hwalked).overNoted head rfl noted hnoted (.refl noted)
  refine ⟨?_, fun medium hv noted hnoted _ => hnotes noted (hvia medium hv ▸ hnoted)⟩
  obtain ⟨-, ⟨-, hl, -⟩ | ⟨nested, -, hentered⟩⟩ := h.medium hs hm
  · obtain ⟨noted, hnoted, hat⟩ := hf.closed state head hl
    exact (hnotes noted hnoted).recognizes hat
  · exact (hin state nested hentered).recognizes

include hf in
/-- A level accepts at a medium that may be empty. -/
theorem Level.followed_skip (hg : g.Factored) (hm : isMedium g head) (hcase : counted g head []) :
    Followed final s none state links [] := by
  refine followed_of_accepts ?_
  obtain ⟨-, ⟨-, hl, hends⟩ | ⟨nested, -, hentered⟩⟩ := h.medium hs hm
  · obtain ⟨noted, hnoted, -⟩ := hf.closed state head hl
    obtain ⟨origin, hwalked⟩ := hf.entered head noted hnoted
    obtain ⟨trie, ht, hempty⟩ := spells_of_counted hg hcase (hwalked.level hf).loopless
    exact hends (by rw [ht]; exact hempty)
  · exact (hentered.level hf).accepts (hentered.spells hg hf hcase)

end Recognized

/-- A walked level recognizes a text that the tour follows from its place. -/
theorem recognizes_of_unfolds (hg : g.Factored) (hf : Finished g token accept final s)
    (h : Unfolds g token via p case text) (hplain : Plain g text)
    (hpart : Part g token accept final (.level p trie state) links)
    (hspells : trie.Spells g.trie? case) : Followed final s via state links text := by
  induction h generalizing trie state links with
  | nil => exact followed_of_accepts ((hpart.level hf).accepts hspells)
  | terminal hn ht hsolid hrest ih =>
    exact (hpart.level hf).followed_terminal hf hspells hn ht hsolid
      (fun c hc => hplain c (List.mem_append_left _ hc)) hrest.eq_nil
      (fun _ _ _ hpart hspells =>
        (ih (fun c hc => hplain c (List.mem_append_right _ hc)) hpart hspells).recognizes)
  | symbolClass hclass _ hfound hrest ih =>
    exact (hpart.level hf).followed_class hf hspells hclass hfound hrest.eq_nil
      (fun _ _ _ hpart hspells =>
        (ih (fun c hc => hplain c (List.mem_cons_of_mem _ hc)) hpart hspells).recognizes)
  | enter hfirst hcase _ hrest ih _ =>
    have hm := isMedium_of_mem_casesOf hcase.1.1
    have hlevel := hpart.level hf
    rw [hrest.eq_nil (hlevel.medium hspells hm).1, List.append_nil] at hplain ⊢
    exact hlevel.followed_enter hspells hm hfirst
      (fun _ hentered => ih hplain hentered (hentered.spells hg hf hcase))
  | loop hvia hcase _ hrest ih _ =>
    have hm := isMedium_of_mem_casesOf hcase.1.1
    have hlevel := hpart.level hf
    rw [hrest.eq_nil (hlevel.medium hspells hm).1, List.append_nil] at hplain ⊢
    exact hlevel.followed_loop hf hspells hm hvia
      (fun _ _ hwalked => ih hplain hwalked (hwalked.spells hg hf hcase))
  | skip hcase hrest _ =>
    have hm := isMedium_of_mem_casesOf hcase.1.1
    have hlevel := hpart.level hf
    rw [hrest.eq_nil (hlevel.medium hspells hm).1]
    exact hlevel.followed_skip hf hspells hg hm hcase

/-! ### Tokens with plain loops -/

/-- The tour follows the rest of a case behind a head that is no medium, if it does so from the level
that follows. -/
theorem Level.unfolds_past (hf : Finished g token accept final s)
    (h : Level g token accept final s p trie state links)
    (hs : trie.Spells g.trie? (head :: rest)) (hk : isTerminal g head ∨ (classOf? g head).isSome)
    (hnil : rest = [] → text = [])
    (hthen : ∀ trie state links, Part g token accept final (.level (p.past head) trie state) links →
      trie.Spells g.trie? rest → Unfolds g token none (p.past head) rest text) :
    Unfolds g token none (p.past head) rest text := by
  rcases h.past hs hf hk with rfl | ⟨trie, state, links, hpart, hspells⟩
  · rw [hnil rfl]
    exact .nil
  · exact hthen trie state links hpart hspells

/-- If the loops of the token are plain, its tour follows all generations through what was walked. A
walked medium with which a medium begins that comes again generates a text over the links of that
one. -/
theorem unfolds_of_generates (hg : g.Factored) (hf : Finished g token accept final s)
    (hloops : g.LoopsPlain token) (hfound : g.FindsClasses)
    (hagain : ∀ p medium, MetAgain g token p medium → g.ComesAgain token medium)
    (h : Grammar.Generates g (counted g) case text) :
    (∀ p trie state links, Part g token accept final (.level p trie state) links →
      trie.Spells g.trie? case → Unfolds g token none p case text) ∧
    (∀ looped medium state links, g.Loops token looped → g.Begins looped medium →
      isMedium g medium →
      Part g token accept final (.level ⟨medium, []⟩ ((g.trie? medium).getD .empty) state) links →
      g.Spells medium case → text ≠ [] → Unfolds g token (some looped) ⟨medium, []⟩ case text) := by
  induction h with
  | nil => exact ⟨fun _ _ _ _ _ _ => .nil, fun _ _ _ _ _ _ _ _ _ hne => absurd rfl hne⟩
  | @terminal head rest text n hn ht hrest ih =>
    have hthen {p : Place} {trie : Trie} {state : StateId} {links : Links}
        (hpart : Part g token accept final (.level p trie state) links)
        (hspells : trie.Spells g.trie? (head :: rest)) :
        Unfolds g token none (p.past head) rest text :=
      (hpart.level hf).unfolds_past hf hspells (.inl (isTerminal_of_node? hn ht)) hrest.eq_nil
        (ih.1 _)
    refine ⟨fun p trie state links hpart hspells => ?_,
      fun looped medium state links hloop hbegins hm hpart hspells _ => ?_⟩
    · exact .terminal hn ht (fun hvia => by cases hvia) (hthen hpart hspells)
    · have hbegins' := hbegins.tail (occurs_of_spells hg hm hspells)
      exact .terminal hn ht (fun _ => hloops.solid looped head n hloop hbegins' hn ht)
        (hthen hpart (spells_getD hspells))
  | @symbolClass head rest c text data hclass hc hrest ih =>
    have hthen {p : Place} {trie : Trie} {state : StateId} {links : Links} (via : Option NodeId)
        (hpart : Part g token accept final (.level p trie state) links)
        (hspells : trie.Spells g.trie? (head :: rest)) :
        Unfolds g token via p (head :: rest) (c :: text) := by
      have hpast := (hpart.level hf).unfolds_past hf hspells (.inr (Option.isSome_of_mem hclass))
        hrest.eq_nil (ih.1 _)
      exact .symbolClass hclass hc (hfound head data hclass c hc) hpast
    exact ⟨fun _ _ _ _ hpart hspells => hthen none hpart hspells,
      fun looped _ _ _ _ _ _ hpart hspells _ => hthen (some looped) hpart (spells_getD hspells)⟩
  | @medium head case rest text more hcase hgen hrest ih _ =>
    obtain ⟨ihlevel, ihlooped⟩ := ih
    have hkind := isMedium_of_mem_casesOf hcase.1.1
    have hlooped {p : Place} (hmet : MetAgain g token p head) : g.Loops token head :=
      ⟨hagain p head hmet, hkind⟩
    refine ⟨fun p trie state links hpart hspells => ?_,
      fun looped medium state links hloop hbegins hm hpart hspells hne => ?_⟩
    · obtain ⟨rfl, origin, noted, hwalked⟩ := (hpart.level hf).last hspells hf hkind
      obtain rfl := hrest.eq_nil rfl
      by_cases hmet : MetAgain g token p head
      · by_cases hempty : text = []
        · subst hempty
          have hown := hloops.empty head (hlooped hmet)
            (.medium hcase.1 (hgen.imp (fun _ _ => And.left)) .nil)
          exact .skip ⟨⟨hown, hcase.1.2⟩, List.cons_ne_nil _ _ ∘ Eq.symm⟩ .nil
        · exact .loop (fun _ hvia => by cases hvia) hcase
            (ihlooped head head origin noted (hlooped hmet) .refl hkind hwalked
              (spells_of_counted hg hcase (hwalked.level hf).loopless) hempty) .nil
      · exact .enter hmet hcase (ihlevel _ _ _ _ hwalked (hwalked.spells hg hf hcase)) .nil
    · have hbegins' := hbegins.tail (occurs_of_spells hg hm hspells)
      obtain ⟨rfl, origin, noted, hwalked⟩ := (hpart.level hf).last (spells_getD hspells) hf hkind
      obtain rfl := hrest.eq_nil rfl
      rw [List.append_nil] at hne
      have hspelled := spells_of_counted hg hcase (hwalked.level hf).loopless
      by_cases hmet : MetAgain g token ⟨medium, []⟩ head
      · obtain rfl := hloops.apart looped head hloop (hlooped hmet) hbegins'
        exact .loop (fun _ hvia => (Option.some.inj hvia).symm) hcase
          (ihlooped head head origin noted hloop .refl hkind hwalked hspelled hne) .nil
      · exact .enter hmet hcase
          (ihlooped looped head origin noted hloop hbegins' hkind hwalked hspelled hne) .nil

end TokenWalk

/-! ### Whole tokens -/

namespace Synthesis

open TokenWalk (UnfoldsToken)

variable {g : Grammar} {s s' : Synthesis} {n : Node} {text : List Char}

theorem Recognizes.grows {state : StateId} (h : s.Recognizes state text) (hs : s.Sound g)
    (hs' : s'.Sound g) (hg : s.Grows s') : s'.Recognizes state text := by
  obtain ⟨last, hr, htoken⟩ := h
  obtain ⟨token, htoken⟩ := Option.isSome_iff_exists.1 htoken
  exact ⟨last, hr.grows hs hs' hg, hg.accepting htoken⟩

/-- The states of a token recognize the texts that its tour follows. -/
theorem recognizes_of_addToken (hg : g.Factored) (hs : s.Sound g) (h : addToken g s n = .ok s')
    (hplain : Plain g text) (hunfolds : UnfoldsToken g n.id text) :
    s'.Recognizes Arena.root text := by
  obtain ⟨accept, final, links, w, hf, hpart, -⟩ := exists_finished_of_addToken hs h
  obtain ⟨case, hcase, hunfolds⟩ := hunfolds
  exact (TokenWalk.recognizes_of_unfolds hg hf hunfolds hplain hpart
    (hpart.spells hg hf hcase)).recognizes

/-- The tour of a token with plain loops follows all texts that the token generates. -/
theorem unfoldsToken_of_generates (hg : g.Factored) (hs : s.Sound g)
    (h : addToken g s n = .ok s') (hm : TokenWalk.isMedium g n.id) (hloops : g.LoopsPlain n.id)
    (hfound : g.FindsClasses) (hgen : Grammar.Generates g g.substantial [n.id] text) :
    UnfoldsToken g n.id text := by
  obtain ⟨accept, final, links, w, hf, hpart, hw⟩ := exists_finished_of_addToken hs h
  cases hgen.without_self with
  | terminal hn ht =>
    exact absurd hm (TokenWalk.not_isMedium_of_isTerminal (TokenWalk.isTerminal_of_node? hn ht))
  | symbolClass hclass => exact absurd hm (TokenWalk.not_isMedium_of_class hclass)
  | @medium _ case _ inner _ hcase hinner hrest =>
    rw [hrest.eq_nil rfl, List.append_nil]
    exact ⟨case, hcase, (TokenWalk.unfolds_of_generates hg hf hloops hfound
      (fun _ _ hmet => TokenWalk.comesAgain_of_metAgain hg hm hw hmet) hinner).1 _ _ _ _ hpart
      (hpart.spells hg hf hcase)⟩

/-- Each of the tokens is added to sound states, and what comes of it stays. -/
theorem exists_addToken_of_mem {tokens : List Node} (hs : s.Sound g)
    (h : tokens.foldlM (addToken g) s = .ok s') (hn : n ∈ tokens) :
    ∃ s₀ s₁, s₀.Sound g ∧ addToken g s₀ n = .ok s₁ ∧ s₁.Sound g ∧ s₁.Grows s' := by
  induction tokens generalizing s with
  | nil => cases hn
  | cons first tokens ih =>
    rw [List.foldlM_cons] at h
    obtain ⟨s₁, hfirst, hrest⟩ := Fault.bind_eq_ok_iff.1 h
    obtain ⟨hs₁, -⟩ := addToken_spec hs hfirst
    rcases List.mem_cons.1 hn with rfl | hn
    · exact ⟨s, s₁, hs, hfirst, hs₁, (foldlM_addToken_spec hs₁ hrest).2⟩
    · exact ih hs₁ hrest hn

end Synthesis

end Syntagma
