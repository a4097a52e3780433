import Syntagma.Proofs.Symbol.Faithfulness

/-! How many characters can be promoted. A promotion takes a character out of a class with more than
one, and the class that it gets instead has no other character, even if it takes the place of a class
of that name. So the characters of the classes with more than one are fewer behind each promotion,
however often a character is promoted. -/

namespace Syntagma

/-! ### Characters of the larger classes -/

namespace SymbolClass

variable {name : String} {symbols : List Char} {classes : List SymbolClass} {c : Char}

/-- What a class counts: its characters, if it has more than one. -/
def weight (symbols : List Char) : Nat := if 1 < symbols.length then symbols.length else 0

theorem weight_le (symbols : List Char) : weight symbols ≤ symbols.length := by
  unfold weight
  split
  · exact Nat.le_refl _
  · exact Nat.zero_le _

/-- A class with more than one character counts less without one of them. -/
theorem weight_filter_lt (hlen : 1 < symbols.length) (hc : c ∈ symbols) :
    weight (symbols.filter (· != c)) < weight symbols := by
  have hfewer : (symbols.filter (· != c)).length < symbols.length :=
    List.length_filter_lt_length_iff_exists.2 ⟨c, hc, by simp⟩
  calc weight (symbols.filter (· != c))
    _ ≤ (symbols.filter (· != c)).length := weight_le _
    _ < symbols.length := hfewer
    _ = weight symbols := (if_pos hlen).symm

/-- How many characters the classes with more than one have together. -/
def promotable (classes : List SymbolClass) : Nat :=
  ((classes.filter (fun k => 1 < k.symbols.length)).flatMap (·.symbols)).length

theorem promotable_cons (k : SymbolClass) (classes : List SymbolClass) :
    promotable (k :: classes) = weight k.symbols + promotable classes := by
  unfold promotable weight
  by_cases h : 1 < k.symbols.length <;> simp [h]

/-- The class that is replaced does not count any more, and the new one does. -/
theorem promotable_replace (name : String) (symbols : List Char) (classes : List SymbolClass) :
    promotable (replace name symbols classes) + weight ((symbolsOf classes name).getD []) =
      promotable classes + weight symbols := by
  induction classes with
  | nil =>
    have hnone : weight ((symbolsOf [] name).getD []) = 0 := rfl
    rw [replace, promotable_cons, hnone, Nat.add_zero, Nat.add_comm]
  | cons k classes ih =>
    rw [symbolsOf_cons, replace]
    by_cases he : k.name = name
    · have hnew : promotable (⟨name, symbols⟩ :: classes) = weight symbols + promotable classes :=
        promotable_cons _ classes
      rw [if_pos he, if_pos he, hnew, promotable_cons, Option.getD_some]
      omega
    · rw [if_neg he, if_neg he, promotable_cons, promotable_cons]
      omega

end SymbolClass

open SymbolClass

namespace ClassTable

variable {t : ClassTable} {name : String} {symbols : List Char} {c : Char}

/-- How many characters the classes with more than one have together. -/
def promotable (t : ClassTable) : Nat := SymbolClass.promotable t.symbolClasses

theorem promotable_setClass (t : ClassTable) (name : String) (symbols : List Char) :
    (t.setClass name symbols).promotable + weight ((t.classSymbols? name).getD []) =
      t.promotable + weight symbols := promotable_replace name symbols t.symbolClasses

theorem promotable_setSingleton_le (t : ClassTable) (c : Char) :
    (t.setSingleton c).promotable ≤ t.promotable :=
  Nat.le_of_add_right_le (Nat.le_of_eq (t.promotable_setClass (String.singleton c) [c]))

theorem promotable_removing_lt (hk : t.classSymbols? name = some symbols)
    (hlen : 1 < symbols.length) (hc : c ∈ symbols) :
    (t.setClass name (symbols.filter (· != c))).promotable < t.promotable := by
  have h := t.promotable_setClass name (symbols.filter (· != c))
  have hless := weight_filter_lt hlen hc
  rw [hk, Option.getD_some] at h
  omega

end ClassTable

/-! ### What was promoted and what may be -/

namespace Narrowing

variable {bound : Nat} {n n' : Narrowing} {c : Char}

/-- The promoted characters that were not collected yet and those that may yet be promoted are this
many at most; no two classes have one name. -/
structure Bounded (bound : Nat) (n : Narrowing) : Prop where
  nodup : (n.table.symbolClasses.map (·.name)).Nodup
  le : n.promoted.length + n.table.promotable ≤ bound

theorem bounded_ofTable {t : ClassTable} (h : (t.symbolClasses.map (·.name)).Nodup) :
    (ofTable t).Bounded t.promotable := ⟨h, Nat.le_of_eq (Nat.zero_add _)⟩

theorem promotable_promote_lt {name : String} {symbols : List Char}
    (hk : n.table.classSymbols? name = some symbols) (hlen : 1 < symbols.length)
    (hc : c ∈ symbols) : (n.promote name symbols c).table.promotable < n.table.promotable :=
  Nat.lt_of_le_of_lt (ClassTable.promotable_setSingleton_le _ c)
    (ClassTable.promotable_removing_lt hk hlen hc)

/-- A promoted character is one of those that might be, and is not among them any more. -/
theorem Bounded.promote (h : n.Bounded bound) {name : String} {symbols : List Char}
    (hk : n.table.classSymbols? name = some symbols) (hlen : 1 < symbols.length)
    (hc : c ∈ symbols) : (n.promote name symbols c).Bounded bound where
  nodup := nodup_names_replace (nodup_names_replace h.nodup)
  le := by
    have hlt := promotable_promote_lt hk hlen hc
    have hle := h.le
    have hone : (n.promote name symbols c).promoted.length = n.promoted.length + 1 :=
      List.length_append
    omega

theorem Bounded.setSingleton (h : n.Bounded bound) (c : Char) :
    ({ n with table := n.table.setSingleton c } : Narrowing).Bounded bound where
  nodup := nodup_names_replace h.nodup
  le := Nat.le_trans (Nat.add_le_add_left (ClassTable.promotable_setSingleton_le _ c) _) h.le

theorem Bounded.key (h : n.Bounded bound) (c : Char) : (n.key c).2.Bounded bound := by
  obtain ⟨name, -, -, he⟩ | ⟨name, symbols, hclass, hsymbols, hlen, he⟩ | ⟨-, -, he⟩ | ⟨-, -, he⟩ :=
    key_cases n c
  all_goals rw [he]
  · exact h
  · -- the class that decides the character is the only one of its name, so it has the character
    obtain ⟨k, hk, rfl, hmem⟩ := exists_of_classOf hclass
    have hall : n.table.classSymbols? k.name = some k.symbols :=
      (symbolsOf_eq_some_iff h.nodup).2 hk
    obtain rfl : k.symbols = symbols := by rw [← hsymbols, hall, Option.getD_some]
    exact h.promote hall hlen hmem
  · exact h.setSingleton c
  · exact h

theorem Bounded.keys (h : n.Bounded bound) (text : List Char) : (n.keys text).2.Bounded bound := by
  induction text generalizing n with
  | nil => exact h
  | cons c text ih => exact ih (h.key c)

theorem Bounded.spellings (h : n.Bounded bound) (texts : List String) :
    (n.spellings texts).2.Bounded bound := by
  induction texts generalizing n with
  | nil => exact h
  | cons text texts ih => exact ih (h.keys text.toList)

/-- The collected characters were counted, and do not count any more. -/
theorem Bounded.takePromoted (h : n.Bounded bound) :
    n.promoted.length ≤ bound ∧ n.takePromoted.2.Bounded (bound - n.promoted.length) := by
  have hle := h.le
  refine ⟨Nat.le_of_add_right_le hle, h.nodup, ?_⟩
  have hnone : n.takePromoted.2.promoted.length = 0 := rfl
  have hsame : n.takePromoted.2.table = n.table := rfl
  rw [hnone, hsame]
  omega

/-- The characters that were promoted in some rounds, in each of which some texts are taken and then
what they promoted is collected. -/
def collected (n : Narrowing) : List (List String) → List Char
  | [] => []
  | texts :: rounds =>
    let (promoted, n) := (n.spellings texts).2.takePromoted
    promoted ++ n.collected rounds

/-- The characters of the larger classes bound all promotions there will be. -/
theorem Bounded.length_collected_le (h : n.Bounded bound) (rounds : List (List String)) :
    (n.collected rounds).length ≤ bound := by
  induction rounds generalizing n bound with
  | nil => exact Nat.zero_le _
  | cons texts rounds ih =>
    obtain ⟨hle, hrest⟩ := (h.spellings texts).takePromoted
    have hlater := ih hrest
    have hsplit : (n.collected (texts :: rounds)).length =
        (n.spellings texts).2.promoted.length +
          ((n.spellings texts).2.takePromoted.2.collected rounds).length := List.length_append
    omega

end Narrowing

end Syntagma
