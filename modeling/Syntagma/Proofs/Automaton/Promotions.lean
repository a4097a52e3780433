import Syntagma.Proofs.Automaton.AcceptingStates
import Syntagma.Proofs.Symbol.Promotable

/-! The loop that gives paths to promoted characters comes to an end. A path promotes its own
character at most, and a character with a path is passed over, so each pending character takes two
rounds at most, whatever the classes are. Where no two classes have one name, the rounds are no more
than the characters of the classes with more than one, all that was promoted on the way to the loop
included. -/

namespace Syntagma

open Synthesis

/-! ### The loop over pending characters -/

/-- Where the loop is: the characters that were promoted and not visited yet, what is synthesized so
far, and the texts that have a path. -/
structure Promotions where
  pending : List Char
  synthesis : Synthesis
  done : List String

namespace Promotions

variable {g : Grammar} {p p' last : Promotions} {c : Char} {n : Nat}

/-- The loop starts with what was promoted so far. -/
def start (s : Synthesis) (done : List String) : Promotions :=
  ⟨s.narrowing.takePromoted.1, { s with narrowing := s.narrowing.takePromoted.2 }, done⟩

/-- A character gets a path, unless it has one. -/
def visit (g : Grammar) (p : Promotions) (c : Char) : Synthesis × List String :=
  if p.done.contains (String.singleton c) then (p.synthesis, p.done)
  else
    let (last, s) := p.synthesis.literalPath [c]
    ({ s with arena := s.arena.offerToken last (genericToken g (String.singleton c)) },
      p.done ++ [String.singleton c])

/-- A round of the loop: the last character is visited, and what was promoted by this is pending. -/
def next (g : Grammar) (p : Promotions) : Option Promotions :=
  p.pending.getLast?.map (fun c =>
    let (s, done) := p.visit g c
    ⟨p.pending.dropLast ++ s.narrowing.takePromoted.1,
      { s with narrowing := s.narrowing.takePromoted.2 }, done⟩)

/-- The loop goes over this many rounds, after which no character is pending. -/
inductive Runs (g : Grammar) : Promotions → Nat → Promotions → Prop where
  | done {p : Promotions} : p.next g = none → Runs g p 0 p
  | next {p p' last : Promotions} {n : Nat} : p.next g = some p' → Runs g p' n last →
    Runs g p (n + 1) last

theorem addPromoted_succ (g : Grammar) (steps : Nat) (p : Promotions) :
    addPromoted g (steps + 1) p.pending p.synthesis p.done = match p.next g with
      | none => p.synthesis
      | some p' => addPromoted g steps p'.pending p'.synthesis p'.done := by
  unfold next visit
  rw [addPromoted]
  cases p.pending.getLast? with
  | none => rfl
  | some c => rfl

/-- With more steps than there are rounds the synthesis gets to the end of the loop. -/
theorem Runs.addPromoted_eq (h : p.Runs g n last) {steps : Nat} (hsteps : n < steps) :
    addPromoted g steps p.pending p.synthesis p.done = last.synthesis := by
  induction h generalizing steps with
  | done hnone =>
    obtain ⟨steps, rfl⟩ := Nat.exists_eq_succ_of_ne_zero (Nat.ne_of_gt hsteps)
    rw [addPromoted_succ, hnone]
  | next hnext _ ih =>
    obtain ⟨steps, rfl⟩ := Nat.exists_eq_succ_of_ne_zero (Nat.ne_of_gt (Nat.zero_lt_of_lt hsteps))
    rw [addPromoted_succ, hnext]
    exact ih (Nat.lt_of_succ_lt_succ hsteps)

/-! ### One round -/

/-- What is promoted by looking up a character is this character at most. -/
theorem promoted_keys_singleton (n : Narrowing) (c : Char) :
    (n.keys [c]).2.promoted = n.promoted ∨ (n.keys [c]).2.promoted = n.promoted ++ [c] := by
  have hkeys : (n.keys [c]).2 = (n.key c).2 := rfl
  obtain ⟨name, -, -, he⟩ | ⟨name, symbols, -, -, -, he⟩ | ⟨-, -, he⟩ | ⟨-, -, he⟩ :=
    Narrowing.key_cases n c
  all_goals rw [hkeys, he]
  · exact .inl rfl
  · exact .inr rfl
  · exact .inl rfl
  · exact .inl rfl

theorem visit_cases (g : Grammar) (p : Promotions) (c : Char) :
    (String.singleton c ∈ p.done ∧ (p.visit g c).1.narrowing = p.synthesis.narrowing ∧
      (p.visit g c).2 = p.done) ∨
    (String.singleton c ∉ p.done ∧
      (p.visit g c).1.narrowing = (p.synthesis.narrowing.keys [c]).2 ∧
      (p.visit g c).2 = p.done ++ [String.singleton c]) := by
  unfold visit
  split
  next hdone => exact .inl ⟨List.contains_iff_mem.1 hdone, rfl, rfl⟩
  next hdone => exact .inr ⟨fun hmem => hdone (List.contains_iff_mem.2 hmem), rfl, rfl⟩

/-- A round passes over a character that has a path, or looks up the key of one that gets a path. -/
theorem next_cases (h : p.next g = some p') : ∃ c rest, p.pending = rest ++ [c] ∧
    ∃ n, p'.pending = rest ++ n.promoted ∧ p'.synthesis.narrowing = n.takePromoted.2 ∧
      ((String.singleton c ∈ p.done ∧ n = p.synthesis.narrowing ∧ p'.done = p.done) ∨
        (String.singleton c ∉ p.done ∧ n = (p.synthesis.narrowing.keys [c]).2 ∧
          p'.done = p.done ++ [String.singleton c])) := by
  obtain ⟨c, hc, rfl⟩ := Option.map_eq_some_iff.1 h
  obtain ⟨rest, hrest⟩ := List.getLast?_eq_some_iff.1 hc
  refine ⟨c, rest, hrest, (p.visit g c).1.narrowing, ?_, rfl, visit_cases g p c⟩
  dsimp only
  rw [hrest, List.dropLast_concat]
  rfl

/-! ### Rounds that are left, whatever the classes are -/

/-- The rounds that a pending character takes: one for its path, and one more if it is promoted then. -/
def roundsOf (done : List String) (c : Char) : Nat :=
  if String.singleton c ∈ done then 1 else 2

/-- The rounds that are left at most. -/
def roundsLeft (p : Promotions) : Nat :=
  ((p.pending ++ p.synthesis.narrowing.promoted).map (roundsOf p.done)).sum

theorem roundsOf_le (done : List String) (c : Char) : roundsOf done c ≤ 2 := by
  unfold roundsOf
  split <;> decide

theorem roundsOf_append_le (done more : List String) (c : Char) :
    roundsOf (done ++ more) c ≤ roundsOf done c := by
  unfold roundsOf
  by_cases hdone : String.singleton c ∈ done
  · rw [if_pos (List.mem_append_left more hdone), if_pos hdone]
  · rw [if_neg hdone]
    exact roundsOf_le (done ++ more) c

theorem roundsLeft_le (p : Promotions) :
    p.roundsLeft ≤ 2 * (p.pending.length + p.synthesis.narrowing.promoted.length) := by
  have htwo : ∀ k ∈ (p.pending ++ p.synthesis.narrowing.promoted).map (roundsOf p.done), k ≤ 2 := by
    intro k hk
    obtain ⟨c, -, rfl⟩ := List.mem_map.1 hk
    exact roundsOf_le p.done c
  calc p.roundsLeft
    _ ≤ ((p.pending ++ p.synthesis.narrowing.promoted).map (roundsOf p.done)).length • 2 :=
      List.sum_le_card_nsmul _ 2 htwo
    _ = 2 * (p.pending.length + p.synthesis.narrowing.promoted.length) := by
      rw [List.length_map, List.length_append, smul_eq_mul, Nat.mul_comm]

/-- Every round leaves fewer rounds. -/
theorem roundsLeft_lt (h : p.next g = some p') : p'.roundsLeft < p.roundsLeft := by
  obtain ⟨c, rest, hpending, n, hpending', hnarrowing, hvisit⟩ := next_cases h
  have hnone : p'.synthesis.narrowing.promoted = [] := by rw [hnarrowing]; rfl
  have hleft : p.roundsLeft = (rest.map (roundsOf p.done)).sum + roundsOf p.done c +
      (p.synthesis.narrowing.promoted.map (roundsOf p.done)).sum := by
    simp [roundsLeft, hpending, Nat.add_assoc]
  have hleft' : p'.roundsLeft =
      (rest.map (roundsOf p'.done)).sum + (n.promoted.map (roundsOf p'.done)).sum := by
    simp [roundsLeft, hpending', hnone]
  rcases hvisit with ⟨hdone, rfl, hsame⟩ | ⟨hdone, rfl, hmore⟩
  · have hone : roundsOf p.done c = 1 := if_pos hdone
    rw [hleft, hleft', hsame, hone]
    omega
  · have htwo : roundsOf p.done c = 2 := if_neg hdone
    have hone : roundsOf p'.done c = 1 := if_pos (by rw [hmore]; simp)
    have hle (l : List Char) : (l.map (roundsOf p'.done)).sum ≤ (l.map (roundsOf p.done)).sum := by
      rw [hmore]
      exact List.sum_le_sum (fun d _ => roundsOf_append_le p.done _ d)
    have hrest := hle rest
    have hpromoted := hle p.synthesis.narrowing.promoted
    -- the visited character may be pending again, for one round now
    rcases promoted_keys_singleton p.synthesis.narrowing c with he | he
    · rw [hleft, hleft', he, htwo]
      omega
    · rw [hleft, hleft', he, htwo, List.map_append, List.sum_append, List.map_singleton,
        List.sum_singleton, hone]
      omega

/-- The loop ends from wherever it is. -/
theorem exists_runs (g : Grammar) (p : Promotions) :
    ∃ n last, p.Runs g n last ∧ n ≤ p.roundsLeft := by
  induction hleft : p.roundsLeft using Nat.strong_induction_on generalizing p with
  | h left ih =>
    cases hnext : p.next g with
    | none => exact ⟨0, p, .done hnext, Nat.zero_le _⟩
    | some p' =>
      have hlt : p'.roundsLeft < left := hleft ▸ roundsLeft_lt hnext
      obtain ⟨n, last, hruns, hle⟩ := ih p'.roundsLeft hlt p' rfl
      exact ⟨n + 1, last, .next hnext hruns, Nat.lt_of_le_of_lt hle hlt⟩

/-! ### Rounds and characters of the larger classes -/

/-- A round takes a pending character, and makes pending what was promoted meanwhile. -/
theorem next_bounded {bound : Nat} (hb : p.synthesis.narrowing.Bounded bound)
    (h : p.next g = some p') : ∃ bound', p'.synthesis.narrowing.Bounded bound' ∧
      p'.pending.length + bound' + 1 = p.pending.length + bound := by
  obtain ⟨c, rest, hpending, n, hpending', hnarrowing, hvisit⟩ := next_cases h
  have hn : n.Bounded bound := by
    rcases hvisit with ⟨-, rfl, -⟩ | ⟨-, rfl, -⟩
    · exact hb
    · exact hb.keys [c]
  obtain ⟨hle, htaken⟩ := hn.takePromoted
  refine ⟨_, hnarrowing ▸ htaken, ?_⟩
  rw [hpending, hpending', List.length_append, List.length_append, List.length_singleton]
  omega

/-- The loop goes once over each pending character and over each one that is promoted yet. -/
theorem Runs.le_bound (h : p.Runs g n last) {bound : Nat}
    (hb : p.synthesis.narrowing.Bounded bound) : n ≤ p.pending.length + bound := by
  induction h generalizing bound with
  | done _ => exact Nat.zero_le _
  | next hnext _ ih =>
    obtain ⟨bound', hb', he⟩ := next_bounded hb hnext
    have hle := ih hb'
    omega

end Promotions

/-! ### What was promoted before -/

namespace Synthesis

variable {g : Grammar} {s s' : Synthesis} {bound : Nat}

theorem bounded_of_respells {n n' : Narrowing} (h : g.Respells n n') (hb : n.Bounded bound) :
    n'.Bounded bound := by
  induction h with
  | refl => exact hb
  | keys _ _ ih => exact ih.keys _

theorem bounded_addToken (hb : s.narrowing.Bounded bound) (hc : s.arena.Closed) {n : Node}
    (ha : addToken g s n = .ok s') : s'.narrowing.Bounded bound := by
  obtain ⟨tag, links, w, -, hw, hcl⟩ := addToken_cases ha
  obtain ⟨hformed, hbuilds, -⟩ := walk_builds hc hw
  obtain ⟨-, hsame, -⟩ := hformed.closeLoops hcl
  rw [hsame]
  exact bounded_of_respells hbuilds.narrowing hb

theorem bounded_foldlM_addToken (hb : s.narrowing.Bounded bound) (hc : s.arena.Closed)
    {tokens : List Node} (h : tokens.foldlM (addToken g) s = .ok s') :
    s'.narrowing.Bounded bound := by
  let good (s : Synthesis) : Prop := s.narrowing.Bounded bound ∧ s.arena.Closed
  suffices hgood : good s' from hgood.1
  refine Fault.foldlM_keeps (fun n _ s₁ s₂ h₁ ha => ?_) (⟨hb, hc⟩ : good s) h
  exact ⟨bounded_addToken h₁.1 h₁.2 ha, (addToken_builds h₁.2 ha).closed h₁.2⟩

theorem accept_narrowing {state : StateId} {token : AcceptToken}
    (ha : s.accept state token = .ok s') : s'.narrowing = s.narrowing := by
  unfold accept at ha
  split at ha
  next =>
    split at ha <;> cases ha
    rfl
  next =>
    cases ha
    rfl

theorem bounded_addTerminal (hb : s.narrowing.Bounded bound) {done done' : List String}
    {text : String} (ha : addTerminal g s done text = .ok (s', done')) :
    s'.narrowing.Bounded bound := by
  unfold addTerminal at ha
  split at ha
  · cases ha
    exact hb
  split at ha
  · cases ha
    exact hb
  obtain ⟨s₁, haccept, ha⟩ := Fault.bind_eq_ok_iff.1 ha
  cases ha
  rw [accept_narrowing haccept]
  exact hb.keys text.toList

theorem bounded_foldlM_addTerminal (hb : s.narrowing.Bounded bound) {texts done : List String}
    (h : texts.foldlM (fun (s, done) text => addTerminal g s done text) (s, []) =
      .ok (s', done)) : s'.narrowing.Bounded bound :=
  @Fault.foldlM_keeps _ _ _ _ (fun acc : Synthesis × List String => acc.1.narrowing.Bounded bound) _
    (fun _ _ _ _ h₁ h₂ => bounded_addTerminal h₁ h₂) _ _ hb h

theorem nodup_classTable_of_compile {description : GrammarDescription} {options : GrammarOptions}
    (hg : Grammar.compile description options = .ok g) :
    (g.classTable.symbolClasses.map (·.name)).Nodup := by
  obtain ⟨_, _, _, -, hclassified⟩ := classified_of_compile hg
  obtain ⟨base, hbase, htable⟩ := hclassified.table
  rw [htable]
  exact Coverage.nodup_register hbase

/-- Promotions run out. Whatever texts are taken one after the other, the characters that they promote
are no more than those of the classes with more than one. The loop over the promoted characters ends
from wherever it is, and the synthesis takes enough steps to get to its end. Each round of it is for
one promoted character, and all of them together are no more than the characters of those classes. No
two classes of a compiled grammar have one name. -/
theorem promotions_run_out :
    (∀ (t : ClassTable) (rounds : List (List String)), (t.symbolClasses.map (·.name)).Nodup →
      ((Narrowing.ofTable t).collected rounds).length ≤ t.promotable) ∧
    (∀ (g : Grammar) (p : Promotions), ∃ n last, p.Runs g n last ∧
      n ≤ 2 * (p.pending.length + p.synthesis.narrowing.promoted.length) ∧
      ∀ steps, n < steps →
        addPromoted g steps p.pending p.synthesis p.done = last.synthesis) ∧
    (∀ (g : Grammar) (s s₁ : Synthesis) (done : List String),
      (genericTerminals g).foldlM (fun (s, done) text => addTerminal g s done text) (s, []) =
        .ok (s₁, done) →
      ∃ n last, (Promotions.start s₁ done).Runs g n last ∧ addTerminals g s = .ok last.synthesis ∧
        ((g.classTable.symbolClasses.map (·.name)).Nodup →
          g.tokens.foldlM (addToken g) (ofTable g.classTable) = .ok s →
          n ≤ g.classTable.promotable)) ∧
    ∀ (description : GrammarDescription) (options : GrammarOptions) (g : Grammar),
      Grammar.compile description options = .ok g →
      (g.classTable.symbolClasses.map (·.name)).Nodup := by
  have hends (g : Grammar) (p : Promotions) : ∃ n last, p.Runs g n last ∧
      n ≤ 2 * (p.pending.length + p.synthesis.narrowing.promoted.length) ∧
      ∀ steps, n < steps →
        addPromoted g steps p.pending p.synthesis p.done = last.synthesis := by
    obtain ⟨n, last, hruns, hle⟩ := Promotions.exists_runs g p
    exact ⟨n, last, hruns, Nat.le_trans hle p.roundsLeft_le, fun _ hlt => hruns.addPromoted_eq hlt⟩
  refine ⟨fun t rounds hnodup => ?_, hends, fun g s s₁ done hfold => ?_,
    fun _ _ _ => nodup_classTable_of_compile⟩
  · exact (Narrowing.bounded_ofTable hnodup).length_collected_le rounds
  obtain ⟨n, last, hruns, hle, hsteps⟩ := hends g (.start s₁ done)
  refine ⟨n, last, hruns, ?_, fun hnodup htokens => ?_⟩
  · unfold addTerminals
    rw [hfold]
    exact congrArg Except.ok (hsteps _ (Nat.lt_succ_of_le hle))
  · have htable : (ofTable g.classTable).narrowing.Bounded g.classTable.promotable :=
      Narrowing.bounded_ofTable hnodup
    have htokened := bounded_foldlM_addToken htable Arena.closed_initial htokens
    obtain ⟨hpending, htaken⟩ := (bounded_foldlM_addTerminal htokened hfold).takePromoted
    calc n
      _ ≤ s₁.narrowing.promoted.length +
          (g.classTable.promotable - s₁.narrowing.promoted.length) := hruns.le_bound htaken
      _ = g.classTable.promotable := Nat.add_sub_cancel' hpending

/-- A character that is taken out of two classes, and the class of its name overwritten by that; and a
grammar whose class of signs loses one of them. -/
theorem promotions_run_out_signed :
    let t := Narrowing.tableOf [⟨"letter", ['a', 'b']⟩, ⟨"digit", ['b', '1']⟩, ⟨"b", ['b', 'x']⟩]
    ((Narrowing.ofTable t).collected [["b"], ["b"], ["b1"]] = ['b', 'b'] ∧ t.promotable = 6 ∧
      ((Narrowing.ofTable t).collected [["b"], ["b"], ["b1"]]).length ≤ t.promotable) ∧
    ∃ g a s s₁ done n last, Grammar.compile signed {} = .ok g ∧
      FiniteAutomaton.ofGrammar g = .ok a ∧ a.narrowed.entries = [("sign", ['+'])] ∧
      g.classTable.promotable = 4 ∧
      g.tokens.foldlM (addToken g) (ofTable g.classTable) = .ok s ∧
      (Promotions.start s₁ done).Runs g n last ∧ addTerminals g s = .ok last.synthesis ∧ n ≤ 4 := by
  obtain ⟨htexts, -, hterminals, hdistinct⟩ := promotions_run_out
  refine ⟨⟨by decide +kernel, by decide +kernel, htexts _ _ (by decide)⟩, ?_⟩
  obtain ⟨g, a, hg, ha, hholds⟩ := GrammarDescription.exists_of_lexer signed
    (fun lexer => decide (lexer.automaton.narrowed.entries = [("sign", ['+'])] ∧
      lexer.grammar.classTable.promotable = 4)) (by decide +kernel)
  obtain ⟨hnarrowed, hfour⟩ := of_decide_eq_true hholds
  obtain ⟨synthesized, hs, -⟩ := Fault.bind_eq_ok_iff.1 ha
  obtain ⟨s, s₂, -, htokens, hadded, -⟩ := ofGrammar_cases hs
  obtain ⟨⟨s₁, done⟩, hfold, -⟩ := Fault.bind_eq_ok_iff.1 hadded
  obtain ⟨n, last, hruns, hlast, hle⟩ := hterminals g s s₁ done hfold
  exact ⟨g, a, s, s₁, done, n, last, hg, ha, hnarrowed, hfour, htokens, hruns, hlast,
    hfour ▸ hle (hdistinct signed {} g hg) htokens⟩

end Synthesis

end Syntagma
