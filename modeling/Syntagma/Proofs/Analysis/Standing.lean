import Syntagma.Analysis.Strategy
import Syntagma.Proofs.Analysis.Run
import Syntagma.Proofs.Grammar.Publication

/-! Derivations in progress. A standing is what a frame of the search stands for; the frames that
follow a visit stand for all that its standing leads to, save for standings that nothing can
follow. -/

namespace Syntagma

/-- Where a derivation stands: the number of tokens consumed, and the positions still to be gone
through, the next one first. -/
structure Standing where
  consumed : Nat
  places : List NodeId

namespace Grammar

/-- The positions that entering a node comes to: the node, and then its loop if it has one. -/
def entered (g : Grammar) (node : NodeId) : List NodeId :=
  node :: ((g.trie? node).bind (·.recursion)).toList

/-- A single move over the tokens with these ids: the next token is consumed, a nonterminal is
entered, or a position where the derivation may end is left. -/
inductive Leads (g : Grammar) (ids : List NodeId) : Standing → Standing → Prop where
  | token {k : Nat} {place a : NodeId} {rest : List NodeId} {trie : Trie} {next : Option NodeId}
    (ht : g.trie? place = some trie) (hc : (a, next) ∈ trie.cases) (hk : g.isTokenKey a)
    (ha : ids[k]? = some a) : Leads g ids ⟨k, place :: rest⟩ ⟨k + 1, next.toList ++ rest⟩
  | dive {k : Nat} {place head : NodeId} {rest : List NodeId} {trie : Trie} {next : Option NodeId}
    (ht : g.trie? place = some trie) (hc : (head, next) ∈ trie.cases)
    (hk : g.isTokenKey head = false) :
    Leads g ids ⟨k, place :: rest⟩ ⟨k, g.entered head ++ (next.toList ++ rest)⟩
  | pop {k : Nat} {place : NodeId} {rest : List NodeId} {trie : Trie}
    (ht : g.trie? place = some trie) (hi : trie.interruptable) :
    Leads g ids ⟨k, place :: rest⟩ ⟨k, rest⟩

/-- The standings that moves from entering the axiom come to, in any order. -/
inductive Reaches (g : Grammar) (ids : List NodeId) : Standing → Prop where
  | start : Reaches g ids ⟨0, g.entered g.axiomId⟩
  | move {t t' : Standing} (h : Reaches g ids t) (hl : g.Leads ids t t') : Reaches g ids t'

/-- Nothing follows: the derivation has ended before the last token, or the position has no
trie. -/
inductive Stuck (g : Grammar) (ids : List NodeId) : Standing → Prop where
  | ended {k : Nat} (h : k < ids.length) : Stuck g ids ⟨k, []⟩
  | bare {k : Nat} {place : NodeId} {rest : List NodeId} (h : g.trie? place = none) :
    Stuck g ids ⟨k, place :: rest⟩

variable {g : Grammar} {ids : List NodeId}

theorem Stuck.not_leads {t t' : Standing} (h : g.Stuck ids t) : ¬g.Leads ids t t' := by
  intro hl
  cases h with
  | ended => cases hl
  | bare hn => cases hl <;> simp_all

/-! ### What the cursor of a grammar offers -/

theorem Linked.continuation?_eq_some_iff (hg : g.Linked) {place a : NodeId} {trie : Trie}
    {next : Option NodeId} (ht : g.trie? place = some trie) :
    trie.continuation? a = some next ↔ (a, next) ∈ trie.cases := by
  have hnodup := hg.nodup place trie ht
  clear ht
  obtain ⟨cases, ends, loop⟩ := trie
  change (cases.map (·.1)).Nodup at hnodup
  unfold Trie.continuation?
  induction cases with
  | nil => simp
  | cons e cases ih =>
    obtain ⟨he, hrest⟩ := List.nodup_cons.1 hnodup
    obtain ⟨head, n⟩ := e
    rw [List.find?_cons]
    by_cases ha : head = a
    · subst ha
      have hnot : (head, next) ∉ cases := fun h => he (List.mem_map_of_mem (f := (·.1)) h)
      simp [hnot, eq_comm]
    · have ha' : (head == a) = false := by simpa using ha
      have hne : ¬(a = head ∧ next = n) := fun h => ha h.1.symm
      simp only [ha', List.mem_cons, Prod.mk.injEq, hne, false_or]
      exact ih hrest

theorem Linked.step_eq_some_iff (hg : g.Linked) {place a : NodeId} {next : Option NodeId} :
    g.cursor.step place a = some next ↔
      g.isTokenKey a ∧ ∃ trie, g.trie? place = some trie ∧ (a, next) ∈ trie.cases := by
  simp only [cursor]
  by_cases hk : g.isTokenKey a
  · rw [if_pos hk, Option.bind_eq_some_iff]
    simp only [hk, true_and]
    exact exists_congr (fun trie => and_congr_right (fun ht => hg.continuation?_eq_some_iff ht))
  · simp [hk]

theorem interruptable_cursor {place : NodeId} :
    g.cursor.interruptable place ↔ ∃ trie, g.trie? place = some trie ∧ trie.interruptable := by
  simp only [cursor]
  cases g.trie? place <;> simp

theorem isSome_entered?_iff {head : NodeId} :
    (g.entered? head).isSome ↔ g.isTokenKey head = false ∧ (g.trie? head).isSome := by
  unfold entered?
  cases g.isTokenKey head <;> simp

theorem mem_dives_cursor {place : NodeId} {d : Dive NodeId} : d ∈ g.cursor.dives place ↔
    ∃ trie head next, g.trie? place = some trie ∧ (head, next) ∈ trie.cases ∧
      g.isTokenKey head = false ∧ (g.trie? head).isSome ∧ d = ⟨head, head, next⟩ := by
  simp only [cursor]
  cases g.trie? place with
  | none => simp
  | some trie =>
    simp only [List.mem_map, List.mem_filter, isSome_entered?_iff]
    constructor
    · rintro ⟨⟨head, next⟩, ⟨hc, hk, hs⟩, rfl⟩
      exact ⟨trie, head, next, rfl, hc, hk, hs, rfl⟩
    · rintro ⟨_, head, next, ht, hc, hk, hs, rfl⟩
      cases ht
      exact ⟨(head, next), ⟨hc, hk, hs⟩, rfl⟩

end Grammar

/-! ### Frames -/

/-- What a frame over the positions of a grammar stands for. -/
def Frame.standing (f : Frame NodeId) : Standing := ⟨f.token, f.place :: f.stack.items⟩

namespace Stack

variable {P : Type}

theorem items_pushAll (s : Stack P) (p : Option P) : (s.pushAll p).items = p.toList ++ s.items := by
  cases p <;> rfl

theorem items_of_pop?_eq_some {s rest : Stack P} {top : P} (h : s.pop? = some (top, rest)) :
    s.items = top :: rest.items := by
  obtain ⟨items, size, hs⟩ := s
  cases items with
  | nil => exact nomatch h
  | cons p items =>
    cases h
    rfl

theorem items_of_pop?_eq_none {s : Stack P} (h : s.pop? = none) : s.items = [] := by
  obtain ⟨items, size, hs⟩ := s
  cases items with
  | nil => rfl
  | cons p items => exact nomatch h

end Stack

namespace Search

/-- What a branch notes when it stands before a token, or at the end of the script. -/
def mark {P : Type} (s : Search P) (k : Nat) (place : Option P) : Progress P :=
  match s.tokens[k]? with
  | some t => ⟨t.position.offset, some k, place⟩
  | none => ⟨s.endOffset, none, place⟩

theorem mem_diveAll {P : Type} {s : Search P} {f : Frame P} {dives : List (Dive P)}
    {frames : List (Frame P)} (h : (s.diveAll f dives).2 = some frames) :
    (∀ e ∈ frames, ∃ d ∈ dives, s.dive? f d = some e) ∧
      ∀ d ∈ dives, ∃ e ∈ frames, s.dive? f d = some e := by
  induction dives generalizing frames with
  | nil =>
    cases h
    simp
  | cons d rest ih =>
    unfold diveAll at h
    split at h
    · exact nomatch h
    next e he =>
      obtain ⟨more, hm, rfl⟩ := Option.map_eq_some_iff.1 h
      obtain ⟨hfrom, hto⟩ := ih hm
      refine ⟨fun x hx => ?_, fun x hx => ?_⟩
      · rcases List.mem_cons.1 hx with rfl | hx
        · exact ⟨d, List.mem_cons_self, he⟩
        · obtain ⟨d', hd', hx⟩ := hfrom x hx
          exact ⟨d', List.mem_cons_of_mem _ hd', hx⟩
      · rcases List.mem_cons.1 hx with rfl | hx
        · exact ⟨e, List.mem_cons_self, he⟩
        · obtain ⟨e', he', hx⟩ := hto x hx
          exact ⟨e', List.mem_cons_of_mem _ he', hx⟩

/-- A search over the tries of a grammar, for a script whose tokens all have ids. -/
structure Over (s : Search NodeId) (g : Grammar) (ids : List NodeId) : Prop where
  linked : g.Linked
  cursor : s.cursor = g.cursor
  ids_eq : s.tokens.toList.map (·.id) = ids.map some

namespace Over

variable {s : Search NodeId} {g : Grammar} {ids : List NodeId} {f : Frame NodeId}

theorem size_eq (h : s.Over g ids) : s.tokens.size = ids.length := by
  simpa using congrArg List.length h.ids_eq

theorem token_cases (h : s.Over g ids) (k : Nat) :
    (s.tokens[k]? = none ∧ ids.length ≤ k) ∨
      ∃ t a, s.tokens[k]? = some t ∧ t.id = some a ∧ ids[k]? = some a := by
  have hk : (s.tokens[k]?).map (·.id) = (ids[k]?).map some := by
    simpa using congrArg (·[k]?) h.ids_eq
  cases ht : s.tokens[k]? with
  | none => exact .inl ⟨rfl, h.size_eq ▸ Array.getElem?_eq_none_iff.1 ht⟩
  | some t =>
    rw [ht] at hk
    cases ha : ids[k]? with
    | none => simp [ha] at hk
    | some a =>
      rw [ha] at hk
      exact .inr ⟨t, a, rfl, Option.some.inj hk, rfl⟩

theorem standing_of_dive? (h : s.Over g ids) {d : Dive NodeId} {e : Frame NodeId}
    (he : s.dive? f d = some e) : e.standing =
      ⟨f.token, g.entered d.entered ++ (d.continuation.toList ++ f.stack.items)⟩ := by
  unfold dive? enter? at he
  rw [h.cursor] at he
  simp only [Option.ite_none_left_eq_some, Option.some.injEq] at he
  obtain ⟨-, rfl⟩ := he
  simp only [Frame.standing, Stack.items_pushAll, Grammar.entered, Grammar.cursor,
    List.cons_append]

/-- What the next token makes of a frame, case by case. -/
inductive TokenCase (s : Search NodeId) (g : Grammar) (ids : List NodeId) (f : Frame NodeId) :
    TokenMove NodeId → Prop where
  | complete (hk : ids.length ≤ f.token) (hs : f.stack.items = [])
    (hi : g.cursor.interruptable f.place) : TokenCase s g ids f .accept
  | ended (hk : ids.length ≤ f.token)
    (hi : ¬(f.stack.items = [] ∧ g.cursor.interruptable f.place)) :
    TokenCase s g ids f (.go [s.mark f.token (some f.place)] [])
  | unmatched {a : NodeId} (ha : ids[f.token]? = some a) (hn : g.cursor.step f.place a = none) :
    TokenCase s g ids f (.go [s.mark f.token (some f.place)] [])
  | consumed {a : NodeId} {next : Option NodeId} {e : Frame NodeId} (ha : ids[f.token]? = some a)
    (hn : g.cursor.step f.place a = some next)
    (he : e.standing = ⟨f.token + 1, next.toList ++ f.stack.items⟩) :
    TokenCase s g ids f (.go [s.mark f.token (some f.place)] [e])
  | last {a : NodeId} (ha : ids[f.token]? = some a) (hn : g.cursor.step f.place a = some none)
    (hs : f.stack.items = []) (hk : ids.length ≤ f.token + 1) : TokenCase s g ids f .accept
  | trailing {a : NodeId} (ha : ids[f.token]? = some a) (hn : g.cursor.step f.place a = some none)
    (hs : f.stack.items = []) (hk : f.token + 1 < ids.length) :
    TokenCase s g ids f (.go [s.mark f.token (some f.place), s.mark (f.token + 1) none] [])

theorem tokenCase (h : s.Over g ids) (f : Frame NodeId) :
    TokenCase s g ids f (s.tokenMove f) := by
  unfold tokenMove
  rw [h.cursor]
  rcases h.token_cases f.token with ⟨ht, hk⟩ | ⟨t, a, ht, hid, ha⟩
  · have hmark : s.mark f.token (some f.place) = ⟨s.endOffset, none, some f.place⟩ := by
      simp only [mark, ht]
    simp only [ht]
    rw [← hmark]
    split
    next hdone =>
      simp only [Bool.and_eq_true, Stack.isEmpty, List.isEmpty_iff] at hdone
      exact .complete hk hdone.1 hdone.2
    next hdone =>
      simp only [Bool.and_eq_true, Stack.isEmpty, List.isEmpty_iff] at hdone
      exact .ended hk hdone
  · have hmark : s.mark f.token (some f.place) =
        ⟨t.position.offset, some f.token, some f.place⟩ := by
      simp only [mark, ht]
    simp only [ht, hid]
    rw [← hmark]
    cases hn : g.cursor.step f.place a with
    | none => exact .unmatched ha hn
    | some next =>
      cases next with
      | some next => exact .consumed ha hn rfl
      | none =>
        cases hp : f.stack.pop? with
        | some e =>
          obtain ⟨top, rest⟩ := e
          refine .consumed ha hn ?_
          rw [Stack.items_of_pop?_eq_some hp]
          rfl
        | none =>
          have hs := Stack.items_of_pop?_eq_none hp
          rcases h.token_cases (f.token + 1) with ⟨ht', hk⟩ | ⟨t', a', ht', -, ha'⟩
          · simp only [ht']
            exact .last ha hn hs hk
          · have hmark' : s.mark (f.token + 1) none =
                ⟨t'.position.offset, some (f.token + 1), none⟩ := by
              simp only [mark, ht']
            simp only [ht']
            rw [← hmark']
            exact .trailing ha hn hs (List.getElem?_eq_some_iff.1 ha').1

theorem leads_of_step (h : s.Over g ids) {a : NodeId} {next : Option NodeId}
    (ha : ids[f.token]? = some a) (hn : g.cursor.step f.place a = some next) :
    g.Leads ids f.standing ⟨f.token + 1, next.toList ++ f.stack.items⟩ := by
  obtain ⟨hk, trie, ht, hc⟩ := h.linked.step_eq_some_iff.1 hn
  exact .token ht hc hk ha

theorem leads_of_interruptable (hi : g.cursor.interruptable f.place) :
    g.Leads ids f.standing ⟨f.token, f.stack.items⟩ := by
  obtain ⟨trie, ht, hi⟩ := Grammar.interruptable_cursor.1 hi
  exact .pop ht hi

/-- A search that accepts at a frame has a derivation of all tokens. -/
theorem leads_of_accept (h : s.Over g ids) (hm : s.tokenMove f = .accept) :
    ∃ k, ids.length ≤ k ∧ g.Leads ids f.standing ⟨k, []⟩ := by
  have hcase := h.tokenCase f
  rw [hm] at hcase
  cases hcase with
  | complete hk hs hi =>
    have hl : g.Leads ids f.standing ⟨f.token, f.stack.items⟩ := leads_of_interruptable hi
    rw [hs] at hl
    exact ⟨f.token, hk, hl⟩
  | last ha hn hs hk =>
    have hl := h.leads_of_step ha hn
    rw [hs] at hl
    exact ⟨f.token + 1, hk, hl⟩

theorem tokenMove_ne_undefined (h : s.Over g ids) {t : Token} : s.tokenMove f ≠ .undefined t := by
  intro hm
  have hcase := h.tokenCase f
  rw [hm] at hcase
  cases hcase

/-- How a visit that goes on follows the frame: by frames for everything its standing leads to,
and with marks of how far it got. -/
structure Follows (s : Search NodeId) (g : Grammar) (ids : List NodeId) (f : Frame NodeId)
    (progress : List (Progress NodeId)) (new : List (Frame NodeId)) : Prop where
  leads : ∀ e ∈ new, g.Leads ids f.standing e.standing
  all (t : Standing) : g.Leads ids f.standing t → (∃ e ∈ new, e.standing = t) ∨
    (g.Stuck ids t ∧ ∃ place, s.mark t.consumed place ∈ progress)
  here : s.mark f.token (some f.place) ∈ progress
  marks : ∀ m ∈ progress, m = s.mark f.token (some f.place) ∨
    (m = s.mark (f.token + 1) none ∧ g.Leads ids f.standing ⟨f.token + 1, []⟩)

theorem standing_of_mem_leave (h : s.Over g ids) {e : Frame NodeId} (he : e ∈ s.leave f) :
    g.cursor.interruptable f.place ∧ e.standing = ⟨f.token, f.stack.items⟩ := by
  unfold leave at he
  rw [h.cursor] at he
  split at he
  next hi =>
    split at he
    next top rest hp =>
      rw [List.mem_singleton.1 he, Stack.items_of_pop?_eq_some hp]
      exact ⟨hi, rfl⟩
    · exact absurd he List.not_mem_nil
  · exact absurd he List.not_mem_nil

theorem exists_mem_leave (h : s.Over g ids) (hi : g.cursor.interruptable f.place)
    (hs : f.stack.items ≠ []) : ∃ e ∈ s.leave f, e.standing = ⟨f.token, f.stack.items⟩ := by
  unfold leave
  rw [h.cursor, if_pos hi]
  cases hp : f.stack.pop? with
  | none => exact absurd (Stack.items_of_pop?_eq_none hp) hs
  | some e =>
    rw [Stack.items_of_pop?_eq_some hp]
    exact ⟨_, List.mem_singleton_self _, rfl⟩

/-! ### What a visit that goes on is followed by -/

section GoesOn

variable {progress : List (Progress NodeId)} {moved dived : List (Frame NodeId)}

theorem TokenCase.here (hcase : TokenCase s g ids f (.go progress moved)) :
    s.mark f.token (some f.place) ∈ progress := by
  cases hcase <;> simp

theorem TokenCase.leads (hcase : TokenCase s g ids f (.go progress moved)) (h : s.Over g ids)
    {e : Frame NodeId} (he : e ∈ moved) : g.Leads ids f.standing e.standing := by
  cases hcase with
  | consumed ha hn hstanding =>
    rw [List.mem_singleton.1 he, hstanding]
    exact h.leads_of_step ha hn
  | _ => exact absurd he List.not_mem_nil

/-- A token that can be consumed is, or it was the last thing the derivation could do. -/
theorem TokenCase.consumes (hcase : TokenCase s g ids f (.go progress moved)) {a : NodeId}
    {next : Option NodeId} (ha : ids[f.token]? = some a)
    (hn : g.cursor.step f.place a = some next) :
    (∃ e ∈ moved, e.standing = ⟨f.token + 1, next.toList ++ f.stack.items⟩) ∨
      (next.toList ++ f.stack.items = [] ∧ f.token + 1 < ids.length ∧
        s.mark (f.token + 1) none ∈ progress) := by
  cases hcase with
  | ended hlen => exact absurd (List.getElem?_eq_some_iff.1 ha).1 (Nat.not_lt.2 hlen)
  | unmatched ha' hn' =>
    obtain rfl := Option.some.inj (ha.symm.trans ha')
    cases hn.symm.trans hn'
  | consumed ha' hn' he =>
    obtain rfl := Option.some.inj (ha.symm.trans ha')
    obtain rfl := Option.some.inj (hn.symm.trans hn')
    exact .inl ⟨_, List.mem_singleton_self _, he⟩
  | trailing ha' hn' hs hlt =>
    obtain rfl := Option.some.inj (ha.symm.trans ha')
    obtain rfl := Option.some.inj (hn.symm.trans hn')
    exact .inr ⟨hs, hlt, by simp⟩

/-- With nothing behind the position, a frame that could be left goes on only before a token. -/
theorem TokenCase.lt_length (hcase : TokenCase s g ids f (.go progress moved))
    (hs : f.stack.items = []) (hi : g.cursor.interruptable f.place) : f.token < ids.length := by
  cases hcase with
  | ended _ hno => exact absurd ⟨hs, hi⟩ hno
  | unmatched ha => exact (List.getElem?_eq_some_iff.1 ha).1
  | consumed ha => exact (List.getElem?_eq_some_iff.1 ha).1
  | trailing ha => exact (List.getElem?_eq_some_iff.1 ha).1

theorem TokenCase.marks (hcase : TokenCase s g ids f (.go progress moved)) (h : s.Over g ids)
    {m : Progress NodeId} (hm : m ∈ progress) : m = s.mark f.token (some f.place) ∨
      (m = s.mark (f.token + 1) none ∧ g.Leads ids f.standing ⟨f.token + 1, []⟩) := by
  cases hcase with
  | trailing ha hn hs hlt =>
    have hl := h.leads_of_step ha hn
    rw [hs] at hl
    simp only [List.mem_cons, List.not_mem_nil, or_false] at hm
    exact hm.imp_right (fun hm => ⟨hm, hl⟩)
  | _ => exact .inl (List.mem_singleton.1 hm)

theorem leads_of_mem_dived (h : s.Over g ids)
    (hd : (s.diveAll f (s.cursor.dives f.place)).2 = some dived) {e : Frame NodeId}
    (he : e ∈ dived) : g.Leads ids f.standing e.standing := by
  rw [h.cursor] at hd
  obtain ⟨d, hd, he⟩ := (mem_diveAll hd).1 e he
  obtain ⟨trie, head, next, ht, hc, hk, -, rfl⟩ := Grammar.mem_dives_cursor.1 hd
  rw [h.standing_of_dive? he]
  exact .dive ht hc hk

theorem exists_mem_dived (h : s.Over g ids)
    (hd : (s.diveAll f (s.cursor.dives f.place)).2 = some dived) {trie inner : Trie}
    {head : NodeId} {next : Option NodeId} (ht : g.trie? f.place = some trie)
    (hc : (head, next) ∈ trie.cases) (hk : g.isTokenKey head = false)
    (hs : g.trie? head = some inner) : ∃ e ∈ dived,
      e.standing = ⟨f.token, g.entered head ++ (next.toList ++ f.stack.items)⟩ := by
  rw [h.cursor] at hd
  have hmem : (⟨head, head, next⟩ : Dive NodeId) ∈ g.cursor.dives f.place :=
    Grammar.mem_dives_cursor.2 ⟨trie, head, next, ht, hc, hk, by rw [hs]; rfl, rfl⟩
  obtain ⟨e, he, hdive⟩ := (mem_diveAll hd).2 _ hmem
  exact ⟨e, he, h.standing_of_dive? hdive⟩

theorem follows (h : s.Over g ids) (hm : s.tokenMove f = .go progress moved)
    (hd : (s.diveAll f (s.cursor.dives f.place)).2 = some dived) :
    Follows s g ids f progress (moved ++ dived ++ s.leave f) := by
  have hcase : TokenCase s g ids f (.go progress moved) := hm ▸ h.tokenCase f
  refine ⟨fun e he => ?_, fun t hl => ?_, hcase.here, fun m => hcase.marks h⟩
  · simp only [List.mem_append] at he
    rcases he with (he | he) | he
    · exact hcase.leads h he
    · exact h.leads_of_mem_dived hd he
    · obtain ⟨hi, hstanding⟩ := h.standing_of_mem_leave he
      rw [hstanding]
      exact leads_of_interruptable hi
  · simp only [List.mem_append]
    have hstanding : f.standing = ⟨f.token, f.place :: f.stack.items⟩ := rfl
    rw [hstanding] at hl
    cases hl with
    | token ht hc hk ha =>
      have hn := h.linked.step_eq_some_iff.2 ⟨hk, _, ht, hc⟩
      rcases hcase.consumes ha hn with ⟨e, he, hs⟩ | ⟨hs, hlt, hmark⟩
      · exact .inl ⟨e, .inl (.inl he), hs⟩
      · rw [hs]
        exact .inr ⟨.ended hlt, none, hmark⟩
    | @dive _ _ head _ _ next ht hc hk =>
      cases hs : g.trie? head with
      | none => exact .inr ⟨.bare hs, _, hcase.here⟩
      | some inner =>
        obtain ⟨e, he, hs⟩ := h.exists_mem_dived hd ht hc hk hs
        exact .inl ⟨e, .inl (.inr he), hs⟩
    | pop ht hi =>
      have hi := Grammar.interruptable_cursor.2 ⟨_, ht, hi⟩
      by_cases hs : f.stack.items = []
      · rw [hs]
        exact .inr ⟨.ended (hcase.lt_length hs hi), _, hcase.here⟩
      · obtain ⟨e, he, hs⟩ := h.exists_mem_leave hi hs
        exact .inl ⟨e, .inr he, hs⟩

end GoesOn

/-- A visit finds a derivation of all tokens, gives up, or is followed by all there is. -/
theorem visit_cases (h : s.Over g ids) (f : Frame NodeId) :
    ((s.visit f).next = .accepted ∧ ∃ k, ids.length ≤ k ∧ g.Leads ids f.standing ⟨k, []⟩) ∨
      (s.visit f).next = .tooDeep ∨
      ∃ new, (s.visit f).next = .frames new ∧ Follows s g ids f (s.visit f).progress new := by
  unfold visit
  cases hm : s.tokenMove f with
  | accept => exact .inl ⟨rfl, h.leads_of_accept hm⟩
  | undefined t => exact absurd hm h.tokenMove_ne_undefined
  | go progress moved =>
    cases hd : s.diveAll f (s.cursor.dives f.place) with
    | mk events dived =>
      cases dived with
      | none => exact .inr (.inl rfl)
      | some dived => exact .inr (.inr ⟨_, rfl, h.follows hm (by rw [hd])⟩)

end Over

end Search

end Syntagma
