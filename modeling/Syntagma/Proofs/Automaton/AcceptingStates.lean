import Syntagma.Proofs.Automaton.NormalForm
import Syntagma.Proofs.Automaton.Precedence
import Syntagma.Proofs.Automaton.Synthesized
import Syntagma.Proofs.Lexing.ListedTerminals

/-! Every token keeps an accepting state. The states are built from the root, so that some keys lead
from there to a state that the walk over a token has marked; widening leaves these keys and the token
at their end, and minimization renumbers what they lead to. -/

namespace Syntagma

namespace Synthesis

variable {g : Grammar} {s s' : Synthesis} {n : Node} {token : AcceptToken} {a : FiniteAutomaton}

/-- The walk over a token of the grammar, which comes after those over the tokens before it, marks a
state as accepting the token. -/
def Marks (g : Grammar) (n : Node) (token : AcceptToken) : Prop :=
  ∃ before after s s' state, g.tokens = before ++ n :: after ∧
    before.foldlM (addToken g) (ofTable g.classTable) = .ok s ∧ addToken g s n = .ok s' ∧
    s'.arena.tokenOf state = some token ∧ token.name = n.name

theorem foldlM_addToken_builds {tokens : List Node} (h : s.arena.Closed)
    (ha : tokens.foldlM (addToken g) s = .ok s') : s.arena.Builds s'.arena := by
  have hstep (n : Node) (_ : n ∈ tokens) (s₁ s₂ : Synthesis) (hb : s.arena.Builds s₁.arena)
      (h₂ : addToken g s₁ n = .ok s₂) : s.arena.Builds s₂.arena :=
    hb.trans (addToken_builds (hb.closed h) h₂)
  exact Fault.foldlM_keeps hstep (.refl _) ha

/-- What a walk has marked stays marked while the other tokens are added. -/
theorem Marks.exists_tokenOf (h : Marks g n token)
    (ha : g.tokens.foldlM (addToken g) (ofTable g.classTable) = .ok s) :
    ∃ state, s.arena.tokenOf state = some token := by
  obtain ⟨before, after, s₁, s₂, state, htokens, h₁, h₂, htoken, -⟩ := h
  rw [htokens, List.foldlM_append, h₁] at ha
  change (n :: after).foldlM (addToken g) s₁ = .ok s at ha
  rw [List.foldlM_cons, h₂] at ha
  have hclosed₁ := (foldlM_addToken_builds Arena.closed_initial h₁).closed Arena.closed_initial
  have hclosed₂ := (addToken_builds hclosed₁ h₂).closed hclosed₁
  exact ⟨state, (foldlM_addToken_builds hclosed₂ ha).token htoken⟩

/-- All states before widening are built from the root. -/
theorem builds_ofGrammar {s₁ s₂ : Synthesis}
    (h₁ : g.tokens.foldlM (addToken g) (ofTable g.classTable) = .ok s₁)
    (h₂ : addTerminals g s₁ = .ok s₂) :
    Arena.initial.Builds (addSingleDelimiter g s₂).arena ∧
      s₁.arena.Builds (addSingleDelimiter g s₂).arena := by
  have hb := foldlM_addToken_builds Arena.closed_initial h₁
  have hi := textInvariant_builds g s₁.arena
  obtain ⟨-, hb'⟩ := hi.addSingleDelimiter (hi.addTerminals ⟨hb.closed Arena.closed_initial, .refl _⟩ h₂)
  exact ⟨hb.trans hb', hb'⟩

/-- Keys lead from the root to every state that was built from there. -/
theorem exists_walk?_of_builds {b : Arena} (h : Arena.initial.Builds b) {state : StateId}
    (hs : state < b.size) : ∃ keys, b.walk? Arena.root keys = some state := by
  obtain ⟨start, keys, hstart, hwalk⟩ := h.reached hs
  obtain rfl : start = Arena.root := Nat.lt_one_iff.1 hstart
  exact ⟨keys, hwalk⟩

/-- Numbers end with a sign, and one of the signs is a terminal of another token. -/
def signed : GrammarDescription :=
  descriptionOf (.mk "Line" .medium
    [[.definition (.mk "number" (.token "constant" none)
        [[.definition (.mk "digit" (.symbolClass "digit" "01") []),
          .definition (.mk "sign" (.symbolClass "sign" "+-") [])]])],
      [.definition (.mk "step" (.token "operator" none) [[literal "+", .reference "digit"]])]])

/-- Whether the walk over the first token marks a state as accepting it. -/
def marksFirst (g : Grammar) (token : AcceptToken) : Bool :=
  match g.tokens with
  | [] => false
  | n :: _ => n.name == token.name && match addToken g (ofTable g.classTable) n with
    | .ok s => s.arena.any (fun state => state.token == some token)
    | .error _ => false

theorem exists_marks_of_marksFirst (h : marksFirst g token) : ∃ n ∈ g.tokens, Marks g n token := by
  unfold marksFirst at h
  split at h
  next => cases h
  next n rest htokens =>
    obtain ⟨hname, h⟩ := Bool.and_eq_true_iff.1 h
    split at h
    next s ha =>
      obtain ⟨state, hlt, htoken⟩ := Array.any_eq_true.1 h
      refine ⟨n, htokens ▸ List.mem_cons_self, [], rest, _, s, state, htokens, rfl, ha, ?_,
        (eq_of_beq hname).symm⟩
      rw [Arena.tokenOf, Array.getElem?_eq_getElem hlt]
      exact eq_of_beq htoken
    next => cases h

end Synthesis

end Syntagma
