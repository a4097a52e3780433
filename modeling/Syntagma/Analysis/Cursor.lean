import Syntagma.Token

/-! What the search needs to know about a grammar: from a position, where a token leads, which
nonterminals can be entered, and whether the derivation may end. -/

namespace Syntagma

/-- A nonterminal case: the position entered, and the one resumed when that has finished. -/
structure Dive (P : Type) where
  node : NodeId
  entered : P
  continuation : Option P
deriving DecidableEq, Inhabited

structure Cursor (P : Type) where
  start : P
  interruptable : P → Bool
  /-- The loop that is put on the stack when a position is entered. -/
  recursion : P → Option P
  /-- Where the case of a token leads, if there is one: to a position, or to the end. -/
  step : P → NodeId → Option (Option P)
  dives : P → List (Dive P)
  /-- The names of the tokens that may come next; nonterminals count with their own first
  tokens. -/
  expected : P → List String

/-- The positions to resume, the next one first. -/
structure Stack (P : Type) where
  items : List P
  size : Nat
  size_eq : size = items.length

namespace Stack

variable {P : Type}

def empty : Stack P := ⟨[], 0, rfl⟩

instance : Inhabited (Stack P) := ⟨empty⟩

def isEmpty (s : Stack P) : Bool := s.items.isEmpty

def push (s : Stack P) (p : P) : Stack P := ⟨p :: s.items, s.size + 1, by simp [s.size_eq]⟩

def pushAll (s : Stack P) (p : Option P) : Stack P :=
  match p with
  | some p => s.push p
  | none => s

def pop? (s : Stack P) : Option (P × Stack P) :=
  match h : s.items with
  | [] => none
  | p :: rest => some (p, ⟨rest, s.size - 1, by simp [s.size_eq, h]⟩)

theorem size_of_pop? {s t : Stack P} {p : P} (h : s.pop? = some (p, t)) : t.size < s.size := by
  unfold pop? at h
  split at h
  · simp at h
  next q rest hi =>
    cases h
    simp [s.size_eq, hi]

end Stack

end Syntagma
