import Mathlib.Data.List.Forall2
import Syntagma.Symbol.Narrowing
import Syntagma.Proofs.Dictionary

/-! What narrowing does to the classes of characters. A character of a literal gets a class that it
keeps from then on; every other character keeps the class that it had in the table as declared. This
needs a table in which a class named by a character of a literal has no other character, and in which
the characters of literals are each in one class at most besides the one they name. -/

namespace Syntagma

/-! ### Replacing a class -/

namespace SymbolClass

variable {name : String} {symbols : List Char} {classes : List SymbolClass} {c : Char}

/-- The characters of the first class of that name, if there is one. -/
def symbolsOf (classes : List SymbolClass) (name : String) : Option (List Char) :=
  (classes.find? (fun k => k.name == name)).map (·.symbols)

/-- The name of the first class with the character. -/
def classOf (classes : List SymbolClass) (c : Char) : Option String :=
  (firstWith classes c).map (·.name)

theorem symbolsOf_cons (k : SymbolClass) (classes : List SymbolClass) (name : String) :
    symbolsOf (k :: classes) name =
      if k.name = name then some k.symbols else symbolsOf classes name := by
  unfold symbolsOf
  by_cases h : k.name = name <;> simp [h]

theorem classOf_cons (k : SymbolClass) (classes : List SymbolClass) (c : Char) :
    classOf (k :: classes) c = if c ∈ k.symbols then some k.name else classOf classes c := by
  unfold classOf firstWith
  by_cases h : c ∈ k.symbols <;> simp [h]

theorem symbolsOf_replace (name : String) (symbols : List Char) (classes : List SymbolClass)
    (other : String) : symbolsOf (replace name symbols classes) other =
      if other = name then some symbols else symbolsOf classes other := by
  induction classes with
  | nil =>
    rw [replace, symbolsOf_cons]
    simp only [@eq_comm _ name other]
  | cons k classes ih =>
    simp only [replace]
    split
    next hk =>
      rw [symbolsOf_cons, symbolsOf_cons, hk]
      by_cases h : other = name
      · simp [h]
      · simp [h, Ne.symm h]
    next hk =>
      rw [symbolsOf_cons, symbolsOf_cons, ih]
      by_cases h : other = name
      · simp [h, hk]
      · simp [h]

/-- A character that a replaced class neither loses nor gains keeps its class. -/
theorem classOf_replace (h : c ∈ symbols ↔ c ∈ (symbolsOf classes name).getD []) :
    classOf (replace name symbols classes) c = classOf classes c := by
  induction classes with
  | nil =>
    have hc : c ∉ symbols := by simpa [symbolsOf] using h
    simp [replace, classOf_cons, hc]
  | cons k classes ih =>
    simp only [replace]
    rw [symbolsOf_cons] at h
    by_cases hk : k.name = name
    · rw [if_pos hk] at h
      have hiff : c ∈ symbols ↔ c ∈ k.symbols := h
      simp [classOf_cons, hk, hiff]
    · rw [if_neg hk] at h
      rw [if_neg hk, classOf_cons, classOf_cons, ih h]

theorem replace_replace (name : String) (symbols more : List Char) (classes : List SymbolClass) :
    replace name more (replace name symbols classes) = replace name more classes := by
  induction classes with
  | nil => simp [replace]
  | cons k classes ih =>
    by_cases h : k.name = name
    · simp [replace, h]
    · simp [replace, h, ih]

/-- Where names are not used twice the old class of the name is gone. -/
theorem mem_replace_of_nodup (hn : (classes.map (·.name)).Nodup) {k : SymbolClass}
    (h : k ∈ replace name symbols classes) :
    k = ⟨name, symbols⟩ ∨ (k ∈ classes ∧ k.name ≠ name) := by
  induction classes with
  | nil => exact .inl (List.mem_singleton.1 h)
  | cons first classes ih =>
    obtain ⟨hfirst, hrest⟩ := List.nodup_cons.1 hn
    simp only [replace] at h
    split at h
    next he =>
      refine (List.mem_cons.1 h).imp_right (fun hm => ⟨List.mem_cons_of_mem first hm, ?_⟩)
      intro hk
      have hmem : k.name ∈ classes.map (·.name) := List.mem_map_of_mem hm
      rw [hk, ← he] at hmem
      exact hfirst hmem
    next he =>
      rcases List.mem_cons.1 h with rfl | h
      · exact .inr ⟨List.mem_cons_self, he⟩
      · exact (ih hrest h).imp_right (fun ⟨hm, hne⟩ => ⟨List.mem_cons_of_mem first hm, hne⟩)

theorem mem_replace_self (name : String) (symbols : List Char) (classes : List SymbolClass) :
    (⟨name, symbols⟩ : SymbolClass) ∈ replace name symbols classes := by
  induction classes with
  | nil => exact List.mem_singleton_self _
  | cons first classes ih =>
    simp only [replace]
    split
    · exact List.mem_cons_self
    · exact List.mem_cons_of_mem first ih

theorem mem_names_replace {other : String} :
    other ∈ (replace name symbols classes).map (·.name) ↔
      other = name ∨ other ∈ classes.map (·.name) := by
  induction classes with
  | nil => simp [replace]
  | cons first classes ih =>
    simp only [replace]
    split
    next h => simp [h]
    next h =>
      rw [List.map_cons, List.mem_cons, ih, List.map_cons, List.mem_cons]
      exact or_left_comm

theorem nodup_names_replace (h : (classes.map (·.name)).Nodup) :
    ((replace name symbols classes).map (·.name)).Nodup := by
  induction classes with
  | nil => simp [replace]
  | cons first classes ih =>
    obtain ⟨hfirst, hrest⟩ := List.nodup_cons.1 h
    simp only [replace]
    split
    next he => rwa [List.map_cons, ← he]
    next he =>
      rw [List.map_cons, List.nodup_cons, mem_names_replace, not_or]
      exact ⟨⟨he, hfirst⟩, ih hrest⟩

theorem symbolsOf_eq_some_iff (h : (classes.map (·.name)).Nodup) :
    symbolsOf classes name = some symbols ↔ (⟨name, symbols⟩ : SymbolClass) ∈ classes := by
  induction classes with
  | nil => simp [symbolsOf]
  | cons first classes ih =>
    obtain ⟨hfirst, hrest⟩ := List.nodup_cons.1 h
    rw [symbolsOf_cons, List.mem_cons]
    by_cases he : first.name = name
    · subst he
      rw [if_pos rfl, Option.some.injEq]
      constructor
      · rintro rfl
        exact .inl rfl
      · rintro (hm | hm)
        · exact (congrArg SymbolClass.symbols hm).symm
        · exact absurd (List.mem_map_of_mem hm) hfirst
    · rw [if_neg he, ih hrest]
      refine ⟨.inr, fun hm => hm.resolve_left (fun hm => he ?_)⟩
      rw [← hm]

theorem exists_of_classOf (h : classOf classes c = some name) :
    ∃ k ∈ classes, k.name = name ∧ c ∈ k.symbols := by
  obtain ⟨k, hk, rfl⟩ := Option.map_eq_some_iff.1 h
  exact ⟨k, List.mem_of_find?_eq_some hk, rfl, by simpa using List.find?_some hk⟩

/-- A character all of whose classes have one name. -/
theorem classOf_eq_of_forall (h : ∃ k ∈ classes, c ∈ k.symbols)
    (ha : ∀ k ∈ classes, c ∈ k.symbols → k.name = name) : classOf classes c = some name := by
  cases hc : classOf classes c with
  | some other =>
    obtain ⟨k, hk, rfl, hm⟩ := exists_of_classOf hc
    rw [ha k hk hm]
  | none =>
    obtain ⟨k, hk, hm⟩ := h
    have hnone : ∀ k ∈ classes, c ∉ k.symbols := by simpa [classOf, firstWith] using hc
    exact absurd hm (hnone k hk)

theorem classOf_eq_none_iff : classOf classes c = none ↔ ∀ k ∈ classes, c ∉ k.symbols := by
  simp [classOf, firstWith]

end SymbolClass

/-! ### Classes that can be told apart -/

open SymbolClass

/-- A class named by one of some characters has no other character, and each of these is in one class
at most besides the one it names. -/
structure ClassTable.Clear (spelled : Char → Prop) (t : ClassTable) : Prop where
  nodup : (t.symbolClasses.map (·.name)).Nodup
  named (k : SymbolClass) : k ∈ t.symbolClasses → ∀ c d, spelled d →
    k.name = String.singleton d → c ∈ k.symbols → c = d
  alone (c : Char) : spelled c → ∀ k ∈ t.symbolClasses, ∀ k' ∈ t.symbolClasses,
    c ∈ k.symbols → c ∈ k'.symbols → k.name ≠ String.singleton c →
    k'.name ≠ String.singleton c → k = k'

/-- Whether names are not used twice, a class named by a character has no other character, and no
character is in two classes besides the one it names. -/
def ClassTable.isApart (t : ClassTable) : Bool :=
  decide (t.symbolClasses.map (·.name)).Nodup &&
    t.symbolClasses.all (fun k => k.name.length != 1 ||
      k.symbols.all (fun c => k.name == String.singleton c)) &&
    t.symbolClasses.all (fun k => t.symbolClasses.all (fun k' => k == k' ||
      k.symbols.all (fun c => !k'.symbols.contains c || k.name == String.singleton c ||
        k'.name == String.singleton c)))

/-- Classes that are apart are clear, whatever is spelled. -/
theorem ClassTable.clear_of_isApart {t : ClassTable} (h : t.isApart) (spelled : Char → Prop) :
    t.Clear spelled := by
  simp only [isApart, Bool.and_eq_true, decide_eq_true_eq, List.all_eq_true, Bool.or_eq_true,
    beq_iff_eq, bne_iff_ne, Bool.not_eq_true', List.contains_eq_mem, decide_eq_false_iff_not] at h
  obtain ⟨⟨hnodup, hnamed⟩, halone⟩ := h
  refine ⟨hnodup, fun k hk c d _ hname hc => ?_, fun c _ k hk k' hk' hc hc' hne hne' => ?_⟩
  · have hlength : k.name.length = 1 := by rw [hname, String.length_singleton]
    have hself := (hnamed k hk).resolve_left (fun h => h hlength) c hc
    exact String.singleton_inj.1 (hself.symm.trans hname)
  · refine (halone k hk k' hk').resolve_right (fun hall => ?_)
    rcases hall c hc with (hout | hown) | hown'
    · exact hout hc'
    · exact hne hown
    · exact hne' hown'

/-! ### Changes to a clear table -/

namespace ClassTable.Clear

variable {spelled : Char → Prop} {t : ClassTable} {c d : Char} {name : String}
  {symbols : List Char}

theorem setSingleton (h : t.Clear spelled) (d : Char) : (t.setSingleton d).Clear spelled where
  nodup := nodup_names_replace h.nodup
  named k hk c e he hname hc := by
    rcases mem_replace_of_nodup h.nodup hk with rfl | ⟨hk, -⟩
    · rw [List.mem_singleton.1 hc]
      exact String.singleton_inj.1 hname
    · exact h.named k hk c e he hname hc
  alone c hs k hk k' hk' hc hc' hne hne' := by
    rcases mem_replace_of_nodup h.nodup hk with rfl | ⟨hk, -⟩
    · exact absurd (congrArg String.singleton (List.mem_singleton.1 hc).symm) hne
    rcases mem_replace_of_nodup h.nodup hk' with rfl | ⟨hk', -⟩
    · exact absurd (congrArg String.singleton (List.mem_singleton.1 hc').symm) hne'
    exact h.alone c hs k hk k' hk' hc hc' hne hne'

theorem removing (h : t.Clear spelled) (hk : (⟨name, symbols⟩ : SymbolClass) ∈ t.symbolClasses)
    (d : Char) : (t.setClass name (symbols.filter (· != d))).Clear spelled where
  nodup := nodup_names_replace h.nodup
  named k hk' c e he hname hc := by
    rcases mem_replace_of_nodup h.nodup hk' with rfl | ⟨hk', -⟩
    · exact h.named _ hk c e he hname (List.mem_filter.1 hc).1
    · exact h.named k hk' c e he hname hc
  alone c hs k₁ hk₁ k₂ hk₂ hc₁ hc₂ hne₁ hne₂ := by
    rcases mem_replace_of_nodup h.nodup hk₁ with rfl | ⟨hk₁, hn₁⟩ <;>
      rcases mem_replace_of_nodup h.nodup hk₂ with rfl | ⟨hk₂, hn₂⟩
    · rfl
    · have := h.alone c hs _ hk k₂ hk₂ (List.mem_filter.1 hc₁).1 hc₂ hne₁ hne₂
      exact absurd (congrArg SymbolClass.name this).symm hn₂
    · have := h.alone c hs k₁ hk₁ _ hk hc₁ (List.mem_filter.1 hc₂).1 hne₁ hne₂
      exact absurd (congrArg SymbolClass.name this) hn₁
    · exact h.alone c hs k₁ hk₁ k₂ hk₂ hc₁ hc₂ hne₁ hne₂

theorem classOf_setSingleton (h : t.Clear spelled) (hd : spelled d) (hne : c ≠ d) :
    classOf (t.setSingleton d).symbolClasses c = classOf t.symbolClasses c := by
  refine classOf_replace (iff_of_false (by simpa using hne) (fun hc => ?_))
  cases hs : symbolsOf t.symbolClasses (String.singleton d) with
  | none => simp [hs] at hc
  | some symbols =>
    rw [hs] at hc
    exact hne (h.named _ ((symbolsOf_eq_some_iff h.nodup).1 hs) c d hd rfl hc)

end ClassTable.Clear

namespace Narrowing

/-- The class of a character, if it has one. -/
def classOf (n : Narrowing) (c : Char) : Option String :=
  SymbolClass.classOf n.table.symbolClasses c

/-- Whether a class has lost a character. -/
def Lost (n : Narrowing) (name : String) (c : Char) : Prop :=
  c ∈ (n.removed.get? name).getD []

theorem symbolInfo_eq (t : ClassTable) (c : Char) : t.symbolInfo c =
    match SymbolClass.classOf t.symbolClasses c with
    | some name => .classified name
    | none => if t.whiteDelimiters.contains c then .whiteDelimiter else .undefined := by
  unfold ClassTable.symbolInfo SymbolClass.classOf
  cases firstWith t.symbolClasses c <;> rfl

theorem className?_symbolInfo (t : ClassTable) (c : Char) :
    (t.symbolInfo c).className? = SymbolClass.classOf t.symbolClasses c := by
  rw [symbolInfo_eq]
  cases SymbolClass.classOf t.symbolClasses c with
  | some name => rfl
  | none =>
    dsimp only
    split <;> rfl

/-- What taking a character for a literal does: nothing, as it has a class of its own or is a white
delimiter; or it gets a class of its own, out of nowhere or out of a larger class. -/
theorem key_cases (n : Narrowing) (c : Char) :
    (∃ name, n.classOf c = some name ∧
      ((n.table.classSymbols? name).getD []).length ≤ 1 ∧ n.key c = (some name, n)) ∨
    (∃ name symbols, n.classOf c = some name ∧ (n.table.classSymbols? name).getD [] = symbols ∧
      1 < symbols.length ∧ n.key c = (some (String.singleton c), n.promote name symbols c)) ∨
    (n.classOf c = none ∧ n.table.whiteDelimiters.contains c = false ∧
      n.key c = (some (String.singleton c), { n with table := n.table.setSingleton c })) ∨
    (n.classOf c = none ∧ n.table.whiteDelimiters.contains c = true ∧ n.key c = (none, n)) := by
  unfold key classOf
  rw [symbolInfo_eq]
  cases SymbolClass.classOf n.table.symbolClasses c with
  | some name =>
    dsimp only
    by_cases h : 1 < ((n.table.classSymbols? name).getD []).length
    · exact .inr (.inl ⟨name, _, rfl, rfl, h, if_pos h⟩)
    · exact .inl ⟨name, rfl, Nat.le_of_not_lt h, if_neg h⟩
  | none =>
    cases hw : n.table.whiteDelimiters.contains c with
    | true => exact .inr (.inr (.inr ⟨rfl, rfl, rfl⟩))
    | false => exact .inr (.inr (.inl ⟨rfl, rfl, rfl⟩))

theorem classOf_promote_of_ne {spelled : Char → Prop} {n : Narrowing} (h : n.table.Clear spelled)
    {name : String} {symbols : List Char} {c d : Char} (hc : spelled c)
    (hk : (⟨name, symbols⟩ : SymbolClass) ∈ n.table.symbolClasses) (hne : d ≠ c) :
    (n.promote name symbols c).classOf d = n.classOf d := by
  have hsymbols := (symbolsOf_eq_some_iff h.nodup).2 hk
  have hkept : d ∈ symbols.filter (· != c) ↔ d ∈ (symbolsOf n.table.symbolClasses name).getD [] := by
    simp [hsymbols, hne]
  calc (n.promote name symbols c).classOf d
    _ = SymbolClass.classOf (n.table.setClass name (symbols.filter (· != c))).symbolClasses d :=
        (h.removing hk c).classOf_setSingleton hc hne
    _ = n.classOf d := classOf_replace hkept

/-- A promoted character is in the class it names, and in no other. -/
theorem classOf_promote_self {spelled : Char → Prop} {n : Narrowing} (h : n.table.Clear spelled)
    {name : String} {symbols : List Char} {c : Char} (hc : spelled c)
    (hk : (⟨name, symbols⟩ : SymbolClass) ∈ n.table.symbolClasses) (hmem : c ∈ symbols)
    (hclass : n.classOf c = some name) :
    (n.promote name symbols c).classOf c = some (String.singleton c) := by
  by_cases hname : name = String.singleton c
  · -- the class had this character alone, only more than once
    subst hname
    have hsymbols := (symbolsOf_eq_some_iff h.nodup).2 hk
    unfold classOf promote ClassTable.setSingleton ClassTable.setClass
    rw [replace_replace, classOf_replace (by simp [hsymbols, hmem])]
    exact hclass
  · refine classOf_eq_of_forall ⟨_, mem_replace_self _ _ _, List.mem_singleton_self c⟩ ?_
    intro k hk' hck
    rcases mem_replace_of_nodup (h.removing hk c).nodup hk' with rfl | ⟨hk', hne⟩
    · rfl
    rcases mem_replace_of_nodup h.nodup hk' with rfl | ⟨hk', hne'⟩
    · simp at hck
    · have heq := h.alone c hc k hk' _ hk hck hmem hne hname
      exact absurd (congrArg SymbolClass.name heq) hne'

/-! ### What stays true -/

/-- The character has a class of its own, or is a white delimiter. -/
def Settled (n : Narrowing) (c : Char) : Prop :=
  (n.classOf c = none ∧ n.table.whiteDelimiters.contains c) ∨
    ∃ name, n.classOf c = some name ∧
      (name = String.singleton c ∨ symbolsOf n.table.symbolClasses name = some [c])

/-- A table in the course of narrowing beside the one at the start. A character with another class
than at the start was taken for a literal and has the class it names. It was in no class at the start
or is lost to it. -/
structure Narrowed (spelled : Char → Prop) (start : ClassTable) (n : Narrowing) : Prop where
  clear : n.table.Clear spelled
  white : n.table.whiteDelimiters = start.whiteDelimiters
  unclassified : n.table.unclassifiedName = start.unclassifiedName
  classOf (c : Char) : n.classOf c = SymbolClass.classOf start.symbolClasses c ∨
    (spelled c ∧ n.classOf c = some (String.singleton c) ∧
      ((SymbolClass.classOf start.symbolClasses c = none ∧
          start.whiteDelimiters.contains c = false) ∨
        ∃ name, SymbolClass.classOf start.symbolClasses c = some name ∧ n.Lost name c))
  lost (name : String) (c : Char) : n.Lost name c →
    SymbolClass.classOf start.symbolClasses c = some name ∨ name = String.singleton c
  own (name : String) (c : Char) : n.Lost name c →
    spelled c ∧ n.classOf c = some (String.singleton c)
  promoted : ∀ c ∈ n.promoted, spelled c
  old (k : SymbolClass) : k ∈ n.table.symbolClasses → ∀ c ∈ k.symbols, k.name = String.singleton c ∨
    ∃ k' ∈ start.symbolClasses, k'.name = k.name ∧ c ∈ k'.symbols

/-- The second table has come from the first: characters that are settled stay where they are, and
what is lost is lost. -/
structure Later (n n' : Narrowing) : Prop where
  settled (c : Char) : n.Settled c → n'.Settled c ∧ n'.classOf c = n.classOf c
  lost (name : String) (c : Char) : n.Lost name c → n'.Lost name c

theorem Later.refl (n : Narrowing) : n.Later n := ⟨fun _ h => ⟨h, rfl⟩, fun _ _ h => h⟩

theorem Later.trans {n n' n'' : Narrowing} (h : n.Later n') (h' : n'.Later n'') : n.Later n'' where
  settled c hc := by
    obtain ⟨hs, he⟩ := h.settled c hc
    obtain ⟨hs', he'⟩ := h'.settled c hs
    exact ⟨hs', he'.trans he⟩
  lost name c hl := h'.lost name c (h.lost name c hl)

variable {spelled : Char → Prop} {start : ClassTable} {n n' : Narrowing} {c : Char}

theorem narrowed_ofTable (h : start.Clear spelled) : Narrowed spelled start (.ofTable start) where
  clear := h
  white := rfl
  unclassified := rfl
  classOf _ := .inl rfl
  lost _ _ hl := absurd hl List.not_mem_nil
  own _ _ hl := absurd hl List.not_mem_nil
  promoted _ hc := absurd hc List.not_mem_nil
  old k hk _ hc := .inr ⟨k, hk, rfl, hc⟩

theorem lost_promote {name other : String} {symbols : List Char} {d : Char} :
    (n.promote name symbols c).Lost other d ↔ n.Lost other d ∨ (other = name ∧ d = c) := by
  unfold Lost promote
  rw [Dictionary.get?_insert]
  by_cases h : other = name
  · simp [h]
  · simp [h]

theorem Narrowed.promote (h : Narrowed spelled start n) (hc : spelled c) {name : String}
    {symbols : List Char} (hk : (⟨name, symbols⟩ : SymbolClass) ∈ n.table.symbolClasses)
    (hmem : c ∈ symbols) (hclass : n.classOf c = some name) :
    Narrowed spelled start (n.promote name symbols c) where
  clear := (h.clear.removing hk c).setSingleton c
  white := h.white
  unclassified := h.unclassified
  classOf d := by
    by_cases hd : d = c
    · subst hd
      refine .inr ⟨hc, classOf_promote_self h.clear hc hk hmem hclass, ?_⟩
      rcases h.classOf d with hs | ⟨-, -, hs⟩
      · exact .inr ⟨name, hs.symm.trans hclass, lost_promote.2 (.inr ⟨rfl, rfl⟩)⟩
      · exact hs.imp_right (fun ⟨other, ho, hl⟩ => ⟨other, ho, lost_promote.2 (.inl hl)⟩)
    · rw [classOf_promote_of_ne h.clear hc hk hd]
      refine (h.classOf d).imp_right (And.imp_right (And.imp_right (Or.imp_right ?_)))
      exact fun ⟨other, ho, hl⟩ => ⟨other, ho, lost_promote.2 (.inl hl)⟩
  lost other d hl := by
    rcases lost_promote.1 hl with hl | ⟨rfl, rfl⟩
    · exact h.lost other d hl
    rcases h.classOf d with hs | ⟨-, hs, -⟩
    · exact .inl (hs.symm.trans hclass)
    · exact .inr (Option.some.inj (hclass.symm.trans hs))
  own other d hl := by
    by_cases hd : d = c
    · subst hd
      exact ⟨hc, classOf_promote_self h.clear hc hk hmem hclass⟩
    · rw [classOf_promote_of_ne h.clear hc hk hd]
      exact h.own other d ((lost_promote.1 hl).resolve_right (fun he => hd he.2))
  promoted d hd := by
    rcases List.mem_append.1 hd with hd | hd
    · exact h.promoted d hd
    · exact List.mem_singleton.1 hd ▸ hc
  old k hk' d hd := by
    rcases mem_replace_of_nodup (h.clear.removing hk c).nodup hk' with rfl | ⟨hk', -⟩
    · exact .inl (congrArg String.singleton (List.mem_singleton.1 hd).symm)
    rcases mem_replace_of_nodup h.clear.nodup hk' with rfl | ⟨hk', -⟩
    · exact h.old _ hk d (List.mem_filter.1 hd).1
    · exact h.old k hk' d hd

theorem classOf_setSingleton_self (h : n.table.Clear spelled) (hclass : n.classOf c = none) :
    ({ n with table := n.table.setSingleton c } : Narrowing).classOf c =
      some (String.singleton c) := by
  refine classOf_eq_of_forall ⟨_, mem_replace_self _ _ _, List.mem_singleton_self c⟩ ?_
  intro k hk hck
  rcases mem_replace_of_nodup h.nodup hk with rfl | ⟨hk, -⟩
  · rfl
  · exact absurd hck (classOf_eq_none_iff.1 hclass k hk)

theorem Narrowed.setSingleton (h : Narrowed spelled start n) (hc : spelled c)
    (hclass : n.classOf c = none) (hw : n.table.whiteDelimiters.contains c = false) :
    Narrowed spelled start { n with table := n.table.setSingleton c } where
  clear := h.clear.setSingleton c
  white := h.white
  unclassified := h.unclassified
  classOf d := by
    by_cases hd : d = c
    · subst hd
      refine .inr ⟨hc, ?_, .inl ⟨?_, h.white ▸ hw⟩⟩
      · exact classOf_setSingleton_self h.clear hclass
      · rcases h.classOf d with hs | ⟨-, hs, -⟩
        · exact hs.symm.trans hclass
        · exact nomatch hclass.symm.trans hs
    · have hsame : ({ n with table := n.table.setSingleton c } : Narrowing).classOf d = n.classOf d :=
        h.clear.classOf_setSingleton hc hd
      rw [hsame]
      exact h.classOf d
  lost := h.lost
  own other d hl := by
    obtain ⟨hspelled, hown⟩ := h.own other d hl
    have hd : d ≠ c := by
      rintro rfl
      exact nomatch hown.symm.trans hclass
    have hsame : ({ n with table := n.table.setSingleton c } : Narrowing).classOf d = n.classOf d :=
      h.clear.classOf_setSingleton hc hd
    exact ⟨hspelled, hsame.trans hown⟩
  promoted := h.promoted
  old k hk d hd := by
    rcases mem_replace_of_nodup h.clear.nodup hk with rfl | ⟨hk, -⟩
    · exact .inl (congrArg String.singleton (List.mem_singleton.1 hd).symm)
    · exact h.old k hk d hd

theorem symbolsOf_setSingleton_of_settled (h : n.table.Clear spelled) (hc : spelled c) {d : Char}
    (hd : d ≠ c) {name : String} (hs : symbolsOf n.table.symbolClasses name = some [d]) :
    symbolsOf (n.table.setSingleton c).symbolClasses name = some [d] := by
  have hne : name ≠ String.singleton c := by
    rintro rfl
    have hk := (symbolsOf_eq_some_iff h.nodup).1 hs
    exact hd (h.named _ hk d c hc rfl (List.mem_singleton_self d))
  rw [ClassTable.setSingleton, ClassTable.setClass, symbolsOf_replace, if_neg hne, hs]

theorem later_promote (h : n.table.Clear spelled) (hc : spelled c) {name : String}
    {symbols : List Char} (hk : (⟨name, symbols⟩ : SymbolClass) ∈ n.table.symbolClasses)
    (hmem : c ∈ symbols) (hclass : n.classOf c = some name) (hlen : 1 < symbols.length) :
    n.Later (n.promote name symbols c) where
  settled d hd := by
    have hsymbols := (symbolsOf_eq_some_iff h.nodup).2 hk
    by_cases hdc : d = c
    · subst hdc
      have hname : name = String.singleton d := by
        rcases hd with ⟨hnone, -⟩ | ⟨other, ho, hown⟩
        · exact nomatch hnone.symm.trans hclass
        obtain rfl := Option.some.inj (ho.symm.trans hclass)
        refine hown.resolve_right (fun hs => ?_)
        rw [Option.some.inj (hsymbols.symm.trans hs)] at hlen
        exact Nat.lt_irrefl 1 hlen
      have hself := classOf_promote_self h hc hk hmem hclass
      exact ⟨.inr ⟨_, hself, .inl rfl⟩, by rw [hself, hclass, hname]⟩
    have hsame := classOf_promote_of_ne h hc hk hdc
    refine ⟨?_, hsame⟩
    unfold Settled
    rw [hsame]
    refine Or.imp_right (fun ⟨other, ho, hown⟩ => ⟨other, ho, hown.imp_right (fun hs => ?_)⟩) hd
    have hne : other ≠ name := by
      rintro rfl
      rw [Option.some.inj (hsymbols.symm.trans hs)] at hlen
      exact Nat.lt_irrefl 1 hlen
    refine symbolsOf_setSingleton_of_settled (n := { n with table := n.table.setClass name _ })
      (h.removing hk c) hc hdc ?_
    rw [ClassTable.setClass, symbolsOf_replace, if_neg hne, hs]
  lost other d hl := lost_promote.2 (.inl hl)

theorem later_setSingleton (h : n.table.Clear spelled) (hc : spelled c)
    (hclass : n.classOf c = none) (hw : n.table.whiteDelimiters.contains c = false) :
    n.Later { n with table := n.table.setSingleton c } where
  settled d hd := by
    have hdc : d ≠ c := by
      rintro rfl
      rcases hd with ⟨-, hwhite⟩ | ⟨other, ho, -⟩
      · exact nomatch hwhite.symm.trans hw
      · exact nomatch ho.symm.trans hclass
    have hsame : ({ n with table := n.table.setSingleton c } : Narrowing).classOf d = n.classOf d :=
      h.classOf_setSingleton hc hdc
    refine ⟨?_, hsame⟩
    unfold Settled
    rw [hsame]
    exact Or.imp_right (fun ⟨other, ho, hown⟩ =>
      ⟨other, ho, hown.imp_right (symbolsOf_setSingleton_of_settled h hc hdc)⟩) hd
  lost _ _ hl := hl

/-- Taking a character for a literal settles it, and the key is the class that it has then. -/
theorem key_spec (h : Narrowed spelled start n) (hc : spelled c) {key : Option String}
    (hkey : n.key c = (key, n')) :
    Narrowed spelled start n' ∧ n.Later n' ∧ n'.Settled c ∧ n'.classOf c = key := by
  obtain ⟨name, hclass, hlen, he⟩ | ⟨name, symbols, hclass, hsymbols, hlen, he⟩ |
    ⟨hclass, hw, he⟩ | ⟨hclass, hw, he⟩ := key_cases n c <;> cases he.symm.trans hkey
  · obtain ⟨k, hk, rfl, hmem⟩ := exists_of_classOf hclass
    have hsymbols : symbolsOf n.table.symbolClasses k.name = some k.symbols :=
      (symbolsOf_eq_some_iff h.clear.nodup).2 hk
    have hall : n.table.classSymbols? k.name = some k.symbols := hsymbols
    rw [hall, Option.getD_some] at hlen
    have hone : k.symbols = [c] := by
      obtain ⟨d, hd⟩ := List.length_eq_one_iff.1
        (Nat.le_antisymm hlen (List.length_pos_of_mem hmem))
      rw [hd] at hmem ⊢
      rw [List.mem_singleton.1 hmem]
    exact ⟨h, .refl n, .inr ⟨_, hclass, .inr (hone ▸ hsymbols)⟩, hclass⟩
  · obtain ⟨k, hk, rfl, hmem⟩ := exists_of_classOf hclass
    have hall : n.table.classSymbols? k.name = some k.symbols :=
      (symbolsOf_eq_some_iff h.clear.nodup).2 hk
    obtain rfl : k.symbols = symbols := by rw [← hsymbols, hall, Option.getD_some]
    have hself := classOf_promote_self h.clear hc hk hmem hclass
    exact ⟨h.promote hc hk hmem hclass, later_promote h.clear hc hk hmem hclass hlen,
      .inr ⟨_, hself, .inl rfl⟩, hself⟩
  · have hs := h.setSingleton hc hclass hw
    have hself := classOf_setSingleton_self h.clear hclass
    exact ⟨hs, later_setSingleton h.clear hc hclass hw, .inr ⟨_, hself, .inl rfl⟩, hself⟩
  · exact ⟨h, .refl n, .inl ⟨hclass, hw⟩, hclass⟩

/-- Taking a whole literal settles all of its characters. The keys are the classes that they have
then, white delimiters left out. -/
theorem keys_spec (h : Narrowed spelled start n) {text : List Char} (ht : ∀ c ∈ text, spelled c)
    {spelling : List String} (hkeys : n.keys text = (spelling, n')) :
    Narrowed spelled start n' ∧ n.Later n' ∧ (∀ c ∈ text, n'.Settled c) ∧
      spelling = text.filterMap n'.classOf := by
  induction text generalizing n spelling with
  | nil =>
    cases hkeys
    exact ⟨h, .refl _, nofun, rfl⟩
  | cons c text ih =>
    simp only [keys] at hkeys
    rcases hk : n.key c with ⟨key, n₁⟩
    obtain ⟨h₁, hlater₁, hsettled, hclass⟩ := key_spec h (ht c List.mem_cons_self) hk
    rw [hk] at hkeys
    rcases hr : n₁.keys text with ⟨rest, n₂⟩
    simp only [hr, Prod.mk.injEq] at hkeys
    obtain ⟨rfl, rfl⟩ := hkeys
    obtain ⟨h₂, hlater₂, hall, hrest⟩ :=
      ih h₁ (fun d hd => ht d (List.mem_cons_of_mem c hd)) hr
    obtain ⟨hsettled', hsame⟩ := hlater₂.settled c hsettled
    refine ⟨h₂, hlater₁.trans hlater₂, ?_, ?_⟩
    · exact List.forall_mem_cons.2 ⟨hsettled', hall⟩
    · rw [List.filterMap_cons, hsame, hclass, ← hrest]
      cases key <;> rfl

theorem takePromoted_spec (h : Narrowed spelled start n) {pending : List Char}
    (hp : n.takePromoted = (pending, n')) :
    Narrowed spelled start n' ∧ n.Later n' ∧ ∀ c ∈ pending, spelled c := by
  cases hp
  refine ⟨⟨h.clear, h.white, h.unclassified, h.classOf, h.lost, h.own, fun _ hc => ?_, h.old⟩,
    ⟨fun _ hc => ⟨hc, rfl⟩, fun _ _ hl => hl⟩, h.promoted⟩
  exact absurd hc List.not_mem_nil

/-! ### Characters that a key stands for -/

/-- Whether a link with this key is one for the character: the key is its class, or a class that has
lost it. -/
def Takes (n : Narrowing) (key : String) (c : Char) : Prop :=
  n.classOf c = some key ∨ n.Lost key c

/-- What a key stands for at the start, it stands for from then on. -/
theorem Narrowed.takes_of_classOf (h : Narrowed spelled start n) {key : String}
    (hstart : SymbolClass.classOf start.symbolClasses c = some key) : n.Takes key c := by
  rcases h.classOf c with hsame | ⟨-, -, ⟨hnone, -⟩ | ⟨name, hname, hlost⟩⟩
  · exact .inl (hsame.trans hstart)
  · exact nomatch hstart.symm.trans hnone
  · obtain rfl := Option.some.inj (hstart.symm.trans hname)
    exact .inr hlost

/-- What a key stands for, it stands for from then on. -/
theorem Narrowed.takes_of_later (h : Narrowed spelled start n) (h' : Narrowed spelled start n')
    (hlater : n.Later n') {key : String} (ht : n.Takes key c) : n'.Takes key c := by
  rcases ht with hclass | hlost
  · rcases h.classOf c with hsame | ⟨-, hown, -⟩
    · exact h'.takes_of_classOf (hsame.symm.trans hclass)
    · exact .inl ((hlater.settled c (.inr ⟨_, hown, .inl rfl⟩)).2.trans hclass)
  · exact .inr (hlater.lost key c hlost)

/-- A settled character that is no white delimiter has a class, which is its key in literals. -/
theorem Narrowed.exists_classOf (h : Narrowed spelled start n) (hs : n.Settled c)
    (hw : start.symbolInfo c ≠ .whiteDelimiter) : ∃ key, n.classOf c = some key := by
  rcases hs with ⟨hnone, hwhite⟩ | ⟨key, hkey, -⟩
  · rcases h.classOf c with hsame | ⟨-, hown, -⟩
    · refine absurd ?_ hw
      rw [symbolInfo_eq, ← hsame, hnone]
      exact if_pos (h.white ▸ hwhite)
    · exact nomatch hnone.symm.trans hown
  · exact ⟨key, hkey⟩

/-- The keys of a literal without white delimiters stand for its characters, one by one. -/
theorem Narrowed.forall₂_takes (h : Narrowed spelled start n) {text : List Char}
    (hs : ∀ c ∈ text, n.Settled c) (hw : ∀ c ∈ text, start.symbolInfo c ≠ .whiteDelimiter) :
    List.Forall₂ n.Takes (text.filterMap n.classOf) text := by
  induction text with
  | nil => exact .nil
  | cons c text ih =>
    obtain ⟨key, hkey⟩ := h.exists_classOf (hs c List.mem_cons_self) (hw c List.mem_cons_self)
    rw [List.filterMap_cons_some hkey]
    exact .cons (.inl hkey) (ih (fun d hd => hs d (List.mem_cons_of_mem c hd))
      (fun d hd => hw d (List.mem_cons_of_mem c hd)))

end Narrowing

end Syntagma
