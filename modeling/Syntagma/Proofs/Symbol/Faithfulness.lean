import Syntagma.Proofs.Symbol.Narrowing

/-! What a sequence of literals does to a table of classes, and how its keys fare. No character gets
out of the classes, and each class is left with what was not taken out of it, as long as no class has
the name of a character and other characters than that. The keys of a character are the class that it
has in the end, whatever the literals are, exactly if the class that decides it has no other
character or the next one with it is its own. -/

namespace Syntagma

/-! ### The classes that have a character -/

namespace SymbolClass

variable {name : String} {symbols : List Char} {classes : List SymbolClass} {c : Char}

/-- The names of the classes that have a character, the deciding one first. -/
def namesWith (classes : List SymbolClass) (c : Char) : List String :=
  (classes.filter (fun k => k.symbols.contains c)).map (·.name)

theorem namesWith_cons (k : SymbolClass) (classes : List SymbolClass) (c : Char) :
    namesWith (k :: classes) c =
      if c ∈ k.symbols then k.name :: namesWith classes c else namesWith classes c := by
  unfold namesWith
  by_cases h : c ∈ k.symbols <;> simp [h]

theorem head?_namesWith (classes : List SymbolClass) (c : Char) :
    (namesWith classes c).head? = classOf classes c := by
  induction classes with
  | nil => rfl
  | cons k classes ih =>
    rw [namesWith_cons, classOf_cons]
    split
    · rfl
    · exact ih

theorem namesWith_subset (classes : List SymbolClass) (c : Char) :
    namesWith classes c ⊆ classes.map (·.name) :=
  List.map_subset _ (List.filter_subset_self classes)

/-- A character that a replaced class neither loses nor gains is in the classes it was in. -/
theorem namesWith_replace (h : c ∈ symbols ↔ c ∈ (symbolsOf classes name).getD []) :
    namesWith (replace name symbols classes) c = namesWith classes c := by
  induction classes with
  | nil =>
    have hc : c ∉ symbols := by simpa [symbolsOf] using h
    simp [replace, namesWith_cons, hc]
  | cons k classes ih =>
    simp only [replace]
    rw [symbolsOf_cons] at h
    by_cases hk : k.name = name
    · rw [if_pos hk] at h
      have hiff : c ∈ symbols ↔ c ∈ k.symbols := h
      simp [namesWith_cons, hk, hiff]
    · rw [if_neg hk] at h
      rw [if_neg hk, namesWith_cons, namesWith_cons, ih h]

/-- A class without the character is none of its classes any more. -/
theorem namesWith_replace_of_not_mem (hn : (classes.map (·.name)).Nodup) (hc : c ∉ symbols) :
    namesWith (replace name symbols classes) c = (namesWith classes c).erase name := by
  induction classes with
  | nil => simp [replace, namesWith, hc]
  | cons k classes ih =>
    obtain ⟨hk, hrest⟩ := List.nodup_cons.1 hn
    simp only [replace]
    split
    next he =>
      have hname : name ∉ classes.map (·.name) := he ▸ (hk : k.name ∉ classes.map (·.name))
      have hout : name ∉ namesWith classes c := fun hm => hname (namesWith_subset classes c hm)
      rw [namesWith_cons, if_neg hc, namesWith_cons]
      split
      · rw [he, List.erase_cons_head]
      · rw [List.erase_of_not_mem hout]
    next he =>
      rw [namesWith_cons, namesWith_cons, ih hrest]
      split
      · rw [List.erase_cons_tail (by simpa using he)]
      · rfl

theorem replace_of_symbolsOf_eq_none (h : symbolsOf classes name = none) :
    replace name symbols classes = classes ++ [⟨name, symbols⟩] := by
  induction classes with
  | nil => rfl
  | cons k classes ih =>
    rw [symbolsOf_cons] at h
    split at h
    · cases h
    next hk => rw [replace, if_neg hk, ih h, List.cons_append]

end SymbolClass

open SymbolClass

namespace ClassTable

/-- Names are not used twice, and a class with the name of a character has this character alone. -/
structure WellNamed (t : ClassTable) : Prop where
  nodup : (t.symbolClasses.map (·.name)).Nodup
  own : ∀ k ∈ t.symbolClasses, ∀ c, k.name = String.singleton c → k.symbols = [c]

/-- The class that decides a character has no other character, or the next class with it, if there
is one, is that of its name. -/
def Apart (t : ClassTable) (c : Char) : Prop :=
  ∀ first second rest, namesWith t.symbolClasses c = first :: second :: rest →
    t.classSymbols? first = some [c] ∨ second = String.singleton c

instance (t : ClassTable) (c : Char) : Decidable (t.Apart c) :=
  match h : namesWith t.symbolClasses c with
  | [] => isTrue (fun _ _ _ hn => by cases h.symm.trans hn)
  | [_] => isTrue (fun _ _ _ hn => by cases h.symm.trans hn)
  | first :: second :: rest =>
    decidable_of_iff (t.classSymbols? first = some [c] ∨ second = String.singleton c)
      ⟨fun ho _ _ _ hn => by cases h.symm.trans hn; exact ho, fun ha => ha first second rest h⟩

variable {t : ClassTable} {name : String} {symbols : List Char} {c d : Char}

theorem classSymbols?_setClass (t : ClassTable) (name : String) (symbols : List Char)
    (other : String) : (t.setClass name symbols).classSymbols? other =
      if other = name then some symbols else t.classSymbols? other :=
  symbolsOf_replace name symbols t.symbolClasses other

theorem WellNamed.classSymbols?_eq_some_iff (h : t.WellNamed) :
    t.classSymbols? name = some symbols ↔ (⟨name, symbols⟩ : SymbolClass) ∈ t.symbolClasses :=
  symbolsOf_eq_some_iff h.nodup

theorem WellNamed.classSymbols?_singleton (h : t.WellNamed)
    (hk : t.classSymbols? (String.singleton c) = some symbols) : symbols = [c] :=
  h.own _ (h.classSymbols?_eq_some_iff.1 hk) c rfl

/-- A class of the name of a character changes nothing but that there is one. -/
theorem WellNamed.classSymbols?_setSingleton (h : t.WellNamed)
    (hk : t.classSymbols? name = some symbols) :
    (t.setSingleton c).classSymbols? name = some symbols := by
  rw [setSingleton, classSymbols?_setClass]
  split
  next he =>
    subst he
    rw [h.classSymbols?_singleton hk]
  next => exact hk

theorem WellNamed.setSingleton (h : t.WellNamed) (c : Char) : (t.setSingleton c).WellNamed where
  nodup := nodup_names_replace h.nodup
  own k hk d hd := by
    rcases mem_replace_of_nodup h.nodup hk with rfl | ⟨hk, -⟩
    · rw [String.singleton_inj.1 hd]
    · exact h.own k hk d hd

/-- A class with more than one character does not have the name of a character. -/
theorem WellNamed.ne_singleton (h : t.WellNamed) (hk : t.classSymbols? name = some symbols)
    (hlen : 1 < symbols.length) (c : Char) : name ≠ String.singleton c := by
  rintro rfl
  rw [h.classSymbols?_singleton hk] at hlen
  exact Nat.lt_irrefl 1 hlen

theorem WellNamed.removing (h : t.WellNamed) (hk : t.classSymbols? name = some symbols)
    (hlen : 1 < symbols.length) (c : Char) :
    (t.setClass name (symbols.filter (· != c))).WellNamed where
  nodup := nodup_names_replace h.nodup
  own k hk' d hd := by
    rcases mem_replace_of_nodup h.nodup hk' with rfl | ⟨hk', -⟩
    · exact absurd hd (h.ne_singleton hk hlen d)
    · exact h.own k hk' d hd

/-- A character is in its own class once this has been added, and otherwise where it was. -/
theorem WellNamed.namesWith_setSingleton (h : t.WellNamed) (c d : Char) :
    namesWith (t.setSingleton c).symbolClasses d =
      if d = c ∧ t.classSymbols? (String.singleton c) = none
      then namesWith t.symbolClasses d ++ [String.singleton c]
      else namesWith t.symbolClasses d := by
  unfold ClassTable.setSingleton setClass
  cases hk : t.classSymbols? (String.singleton c) with
  | some symbols =>
    have hsame : symbolsOf t.symbolClasses (String.singleton c) = some [c] :=
      hk.trans (congrArg some (h.classSymbols?_singleton hk))
    rw [if_neg (by simp)]
    exact namesWith_replace (by rw [hsame, Option.getD_some])
  | none =>
    rw [replace_of_symbolsOf_eq_none hk]
    by_cases hd : d = c <;> simp [namesWith, hd]

/-- A character of the class that decides it. -/
theorem WellNamed.exists_of_classOf (h : t.WellNamed)
    (hclass : classOf t.symbolClasses c = some name) :
    ∃ symbols, t.classSymbols? name = some symbols ∧ c ∈ symbols := by
  obtain ⟨k, hk, rfl, hmem⟩ := SymbolClass.exists_of_classOf hclass
  exact ⟨k.symbols, h.classSymbols?_eq_some_iff.2 hk, hmem⟩

theorem WellNamed.classOf_ne_none (h : t.WellNamed) (hk : t.classSymbols? name = some symbols)
    (hc : c ∈ symbols) : classOf t.symbolClasses c ≠ none :=
  fun hnone => classOf_eq_none_iff.1 hnone _ (h.classSymbols?_eq_some_iff.1 hk) hc

end ClassTable

/-! ### What narrowing keeps -/

namespace Narrowing

/-- The characters of a class that were not taken out of it. -/
def left (n : Narrowing) (k : SymbolClass) : List Char :=
  k.symbols.filter (fun c => !((n.removed.get? k.name).getD []).contains c)

/-- The class that decides the character has no other one. -/
def Decided (n : Narrowing) (c : Char) (name : String) : Prop :=
  n.classOf c = some name ∧ n.table.classSymbols? name = some [c]

/-- A table in the course of narrowing beside the one at the start. The classes of the start are
left with what was not taken out of them, and what was taken out has a class of its own. -/
structure Narrows (start : ClassTable) (n : Narrowing) : Prop where
  wellNamed : n.table.WellNamed
  white : n.table.whiteDelimiters = start.whiteDelimiters
  left : ∀ k ∈ start.symbolClasses, n.table.classSymbols? k.name = some (n.left k)
  own (name : String) (c : Char) :
    n.Lost name c → n.table.classSymbols? (String.singleton c) = some [c]
  passed (c : Char) : start.symbolInfo c = .whiteDelimiter → n.classOf c = none
  apart (c : Char) : start.Apart c → n.table.Apart c

variable {start : ClassTable} {n n' : Narrowing} {c d : Char} {name name' : String}
  {symbols : List Char}

/-- What taking a character for a literal does where classes are well named. A class that is not
narrowed has this character alone. -/
theorem key_cases_of_wellNamed (h : n.table.WellNamed) (c : Char) :
    (∃ name, n.Decided c name ∧ n.key c = (some name, n)) ∨
    (∃ name symbols, n.classOf c = some name ∧ n.table.classSymbols? name = some symbols ∧
      1 < symbols.length ∧ n.key c = (some (String.singleton c), n.promote name symbols c)) ∨
    (n.classOf c = none ∧ n.table.whiteDelimiters.contains c = false ∧
      n.key c = (some (String.singleton c), { n with table := n.table.setSingleton c })) ∨
    (n.classOf c = none ∧ n.table.whiteDelimiters.contains c = true ∧ n.key c = (none, n)) := by
  refine (key_cases n c).imp ?_ (Or.imp_left ?_)
  · rintro ⟨name, hclass, hlen, hkey⟩
    obtain ⟨symbols, hsymbols, hmem⟩ := h.exists_of_classOf hclass
    rw [hsymbols, Option.getD_some] at hlen
    obtain ⟨d, rfl⟩ := List.length_eq_one_iff.1 (Nat.le_antisymm hlen (List.length_pos_of_mem hmem))
    rw [← List.mem_singleton.1 hmem] at hsymbols
    exact ⟨name, ⟨hclass, hsymbols⟩, hkey⟩
  · rintro ⟨name, symbols, hclass, hsymbols, hlen, hkey⟩
    obtain ⟨symbols', hsymbols', -⟩ := h.exists_of_classOf hclass
    rw [hsymbols', Option.getD_some] at hsymbols
    exact ⟨name, symbols, hclass, hsymbols ▸ hsymbols', hlen, hkey⟩

theorem Decided.symbolInfo_eq (h : n.Decided c name) : n.table.symbolInfo c = .classified name := by
  have hclass : SymbolClass.classOf n.table.symbolClasses c = some name := h.1
  rw [Narrowing.symbolInfo_eq, hclass]

theorem Decided.apart (h : n.Decided c name) : n.table.Apart c := by
  intro first second rest hnames
  have hclass : SymbolClass.classOf n.table.symbolClasses c = some name := h.1
  rw [← head?_namesWith, hnames] at hclass
  obtain rfl := Option.some.inj hclass
  exact .inl h.2

/-! ### A character is promoted -/

theorem wellNamed_promote (h : n.table.WellNamed) (hk : n.table.classSymbols? name = some symbols)
    (hlen : 1 < symbols.length) (c : Char) : (n.promote name symbols c).table.WellNamed :=
  (h.removing hk hlen c).setSingleton c

/-- A class that is not the narrowed one stays as it is. -/
theorem classSymbols?_promote (h : n.table.WellNamed)
    (hk : n.table.classSymbols? name = some symbols) (hlen : 1 < symbols.length) {other : String}
    {symbols' : List Char} (ho : n.table.classSymbols? other = some symbols') (c : Char) :
    (n.promote name symbols c).table.classSymbols? other =
      some (if other = name then symbols.filter (· != c) else symbols') := by
  refine (h.removing hk hlen c).classSymbols?_setSingleton ?_
  rw [ClassTable.classSymbols?_setClass, ho]
  split <;> rfl

theorem namesWith_promote_of_ne (h : n.table.WellNamed)
    (hk : n.table.classSymbols? name = some symbols) (hlen : 1 < symbols.length) (hne : d ≠ c) :
    namesWith (n.promote name symbols c).table.symbolClasses d =
      namesWith n.table.symbolClasses d := by
  have hadd := (h.removing hk hlen c).namesWith_setSingleton c d
  rw [if_neg (fun hd => hne hd.1)] at hadd
  have hsymbols : symbolsOf n.table.symbolClasses name = some symbols := hk
  exact hadd.trans (namesWith_replace (by simp [hsymbols, hne]))

/-- The promoted character leaves the class that decided it and comes to its own. -/
theorem namesWith_promote_self (h : n.table.WellNamed) {rest : List String}
    (hnames : namesWith n.table.symbolClasses c = name :: rest)
    (hk : n.table.classSymbols? name = some symbols) (hlen : 1 < symbols.length) :
    namesWith (n.promote name symbols c).table.symbolClasses c =
      if n.table.classSymbols? (String.singleton c) = none then rest ++ [String.singleton c]
      else rest := by
  have hadd := (h.removing hk hlen c).namesWith_setSingleton c c
  have hout : c ∉ symbols.filter (· != c) := by simp
  have hrest : namesWith (n.table.setClass name (symbols.filter (· != c))).symbolClasses c = rest := by
    rw [ClassTable.setClass, namesWith_replace_of_not_mem h.nodup hout, hnames, List.erase_cons_head]
  have hother : (n.table.setClass name (symbols.filter (· != c))).classSymbols? (String.singleton c) =
      n.table.classSymbols? (String.singleton c) := by
    rw [ClassTable.classSymbols?_setClass, if_neg (h.ne_singleton hk hlen c).symm]
  rw [hrest, hother] at hadd
  exact hadd.trans (by simp only [true_and])

/-- A promoted character that stands apart has a class of its own. -/
theorem decided_promote (h : n.table.WellNamed) (ha : n.table.Apart c)
    (hclass : n.classOf c = some name) (hk : n.table.classSymbols? name = some symbols)
    (hlen : 1 < symbols.length) : (n.promote name symbols c).Decided c (String.singleton c) := by
  have hown : (n.promote name symbols c).table.classSymbols? (String.singleton c) = some [c] := by
    unfold promote ClassTable.setSingleton
    rw [ClassTable.classSymbols?_setClass, if_pos rfl]
  refine ⟨?_, hown⟩
  have hhead : (namesWith n.table.symbolClasses c).head? = some name :=
    (head?_namesWith _ c).trans hclass
  obtain ⟨rest, hnames⟩ := List.head?_eq_some_iff.1 hhead
  have hself := namesWith_promote_self h hnames hk hlen
  unfold classOf
  rw [← head?_namesWith, hself]
  -- the next class with the character, if there is one, is its own
  have hnext (second : String) (more : List String) (hrest : rest = second :: more) :
      second = String.singleton c := by
    refine (ha name second more (hrest ▸ hnames)).resolve_left (fun hone => ?_)
    rw [Option.some.inj (hk.symm.trans hone)] at hlen
    exact Nat.lt_irrefl 1 hlen
  cases rest with
  | nil =>
    split
    next => rfl
    next hthere =>
      obtain ⟨symbols', hsymbols'⟩ := Option.ne_none_iff_exists'.1 hthere
      have hmem : (⟨String.singleton c, [c]⟩ : SymbolClass) ∈ n.table.symbolClasses := by
        rw [h.classSymbols?_singleton hsymbols'] at hsymbols'
        exact h.classSymbols?_eq_some_iff.1 hsymbols'
      have hin : String.singleton c ∈ namesWith n.table.symbolClasses c :=
        List.mem_map.2 ⟨_, List.mem_filter.2 ⟨hmem, by simp⟩, rfl⟩
      rw [hnames, List.mem_singleton] at hin
      exact absurd hin.symm (h.ne_singleton hk hlen c)
  | cons second more =>
    rw [hnext second more rfl]
    split <;> rfl

/-- What is decided stays decided. -/
theorem Decided.promote (hd : n.Decided d name') (h : n.table.WellNamed)
    (hclass : n.classOf c = some name) (hk : n.table.classSymbols? name = some symbols)
    (hlen : 1 < symbols.length) : (n.promote name symbols c).Decided d name' := by
  have hne : name' ≠ name := by
    rintro rfl
    rw [Option.some.inj (hk.symm.trans hd.2)] at hlen
    exact Nat.lt_irrefl 1 hlen
  have hdc : d ≠ c := by
    rintro rfl
    exact hne (Option.some.inj (hd.1.symm.trans hclass))
  refine ⟨?_, ?_⟩
  · have hsame : (n.promote name symbols c).classOf d = n.classOf d := by
      unfold classOf
      rw [← head?_namesWith, ← head?_namesWith, namesWith_promote_of_ne h hk hlen hdc]
    rw [hsame, hd.1]
  · rw [classSymbols?_promote h hk hlen hd.2, if_neg hne]

theorem left_promote (n : Narrowing) (name : String) (symbols : List Char) (c : Char)
    (k : SymbolClass) : (n.promote name symbols c).left k =
      if k.name = name then (n.left k).filter (· != c) else n.left k := by
  unfold left promote
  rw [Dictionary.get?_insert]
  split
  next h =>
    rw [List.filter_filter, h, Option.getD_some]
    refine List.filter_congr (fun d _ => ?_)
    by_cases hd : d = c <;> simp [hd]
  next => rfl

theorem Narrows.promote (h : Narrows start n) (hclass : n.classOf c = some name)
    (hk : n.table.classSymbols? name = some symbols) (hlen : 1 < symbols.length) :
    Narrows start (n.promote name symbols c) where
  wellNamed := wellNamed_promote h.wellNamed hk hlen c
  white := h.white
  left k hm := by
    rw [classSymbols?_promote h.wellNamed hk hlen (h.left k hm), left_promote]
    split
    next he => rw [Option.some.inj (hk.symm.trans (he ▸ h.left k hm))]
    next => rfl
  own other d hl := by
    rcases lost_promote.1 hl with hl | ⟨-, rfl⟩
    · rw [classSymbols?_promote h.wellNamed hk hlen (h.own other d hl),
        if_neg (h.wellNamed.ne_singleton hk hlen d).symm]
    · unfold Narrowing.promote ClassTable.setSingleton
      rw [ClassTable.classSymbols?_setClass, if_pos rfl]
  passed d hd := by
    have hdc : d ≠ c := by
      rintro rfl
      cases (h.passed d hd).symm.trans hclass
    have hnone := h.passed d hd
    unfold Narrowing.classOf at hnone ⊢
    rwa [← head?_namesWith, namesWith_promote_of_ne h.wellNamed hk hlen hdc, head?_namesWith]
  apart d hd := by
    by_cases hdc : d = c
    · subst hdc
      exact (decided_promote h.wellNamed (h.apart d hd) hclass hk hlen).apart
    · intro first second rest hnames
      rw [namesWith_promote_of_ne h.wellNamed hk hlen hdc] at hnames
      refine (h.apart d hd first second rest hnames).imp_left (fun hone => ?_)
      rw [classSymbols?_promote h.wellNamed hk hlen hone]
      split
      next he =>
        rw [← he, hone] at hk
        rw [← Option.some.inj hk] at hlen
        exact absurd hlen (Nat.lt_irrefl 1)
      next => rfl

/-! ### A character of no class gets one -/

theorem namesWith_setSingleton_of_ne (h : n.table.WellNamed) (hne : d ≠ c) :
    namesWith (n.table.setSingleton c).symbolClasses d = namesWith n.table.symbolClasses d := by
  rw [h.namesWith_setSingleton, if_neg (fun hd => hne hd.1)]

theorem decided_setSingleton (h : n.table.WellNamed) (hclass : n.classOf c = none) :
    ({ n with table := n.table.setSingleton c } : Narrowing).Decided c (String.singleton c) := by
  have hown : (n.table.setSingleton c).classSymbols? (String.singleton c) = some [c] := by
    unfold ClassTable.setSingleton
    rw [ClassTable.classSymbols?_setClass, if_pos rfl]
  refine ⟨?_, hown⟩
  have hnil : namesWith n.table.symbolClasses c = [] := by
    rw [← List.head?_eq_none_iff, head?_namesWith]
    exact hclass
  have hmissing : n.table.classSymbols? (String.singleton c) = none := by
    refine Option.eq_none_iff_forall_ne_some.2 (fun symbols hk => ?_)
    refine h.classOf_ne_none hk ?_ hclass
    rw [h.classSymbols?_singleton hk]
    exact List.mem_singleton_self c
  unfold classOf
  rw [← head?_namesWith, h.namesWith_setSingleton, if_pos ⟨rfl, hmissing⟩, hnil]
  rfl

theorem Decided.setSingleton (hd : n.Decided d name) (h : n.table.WellNamed)
    (hclass : n.classOf c = none) :
    ({ n with table := n.table.setSingleton c } : Narrowing).Decided d name := by
  have hdc : d ≠ c := by
    rintro rfl
    cases hd.1.symm.trans hclass
  refine ⟨?_, h.classSymbols?_setSingleton hd.2⟩
  have hsame := hd.1
  unfold classOf at hsame ⊢
  rwa [← head?_namesWith, namesWith_setSingleton_of_ne h hdc, head?_namesWith]

theorem Narrows.setSingleton (h : Narrows start n) (hclass : n.classOf c = none)
    (hw : n.table.whiteDelimiters.contains c = false) :
    Narrows start { n with table := n.table.setSingleton c } where
  wellNamed := h.wellNamed.setSingleton c
  white := h.white
  left k hk := h.wellNamed.classSymbols?_setSingleton (h.left k hk)
  own other d hl := h.wellNamed.classSymbols?_setSingleton (h.own other d hl)
  passed d hd := by
    have hdc : d ≠ c := by
      rintro rfl
      rw [Narrowing.symbolInfo_eq, ← h.white, hw] at hd
      split at hd <;> cases hd
    have hnone := h.passed d hd
    unfold Narrowing.classOf at hnone ⊢
    rwa [← head?_namesWith, namesWith_setSingleton_of_ne h.wellNamed hdc, head?_namesWith]
  apart d hd := by
    by_cases hdc : d = c
    · subst hdc
      exact (decided_setSingleton h.wellNamed hclass).apart
    · intro first second rest hnames
      rw [namesWith_setSingleton_of_ne h.wellNamed hdc] at hnames
      exact (h.apart d hd first second rest hnames).imp_left h.wellNamed.classSymbols?_setSingleton

/-! ### Literals -/

theorem narrows_ofTable (h : start.WellNamed) : Narrows start (.ofTable start) where
  wellNamed := h
  white := rfl
  left k hk := by
    have hall : (ofTable start).left k = k.symbols :=
      List.filter_eq_self.2 (fun _ _ => rfl)
    rw [hall]
    exact h.classSymbols?_eq_some_iff.2 hk
  own _ _ hl := absurd hl List.not_mem_nil
  passed c hc := by
    rw [Narrowing.symbolInfo_eq] at hc
    unfold Narrowing.classOf ofTable
    split at hc
    · cases hc
    next hnone => exact hnone
  apart _ hc := hc

/-- A character that was in a class at the start is in one. -/
theorem Narrows.classOf_ne_none (h : Narrows start n) {k : SymbolClass}
    (hk : k ∈ start.symbolClasses) (hc : c ∈ k.symbols) : n.classOf c ≠ none := by
  by_cases hl : n.Lost k.name c
  · exact h.wellNamed.classOf_ne_none (h.own k.name c hl) (List.mem_singleton_self c)
  · refine h.wellNamed.classOf_ne_none (h.left k hk) (List.mem_filter.2 ⟨hc, ?_⟩)
    simpa [Lost] using hl

/-- Characters of which one has decided stay so. -/
def Onward (n n' : Narrowing) : Prop := ∀ c name, n.Decided c name → n'.Decided c name

/-- The characters of a text that are no white delimiters. -/
def spelled (start : ClassTable) (text : List Char) : List Char :=
  text.filter (fun c => start.symbolInfo c != .whiteDelimiter)

/-- Taking a character for a literal: it has a key unless it is a white delimiter, and if it stands
apart the class of that name is decided for it. -/
theorem Narrows.key (h : Narrows start n) {key : Option String} (hkey : n.key c = (key, n')) :
    Narrows start n' ∧ n.Onward n' ∧
      List.Forall₂ (fun c key => start.Apart c → n'.Decided c key) (spelled start [c]) key.toList := by
  have hspelled (hne : n.classOf c ≠ none ∨ n.table.whiteDelimiters.contains c = false) :
      spelled start [c] = [c] := by
    refine List.filter_cons_of_pos ?_
    rw [bne_iff_ne]
    intro hwhite
    rcases hne with hne | hne
    · exact hne (h.passed c hwhite)
    · rw [Narrowing.symbolInfo_eq, ← h.white, hne] at hwhite
      split at hwhite <;> cases hwhite
  obtain ⟨name, hd, he⟩ | ⟨name, symbols, hclass, hk, hlen, he⟩ | ⟨hclass, hw, he⟩ |
    ⟨hclass, hw, he⟩ := key_cases_of_wellNamed h.wellNamed c <;> cases he.symm.trans hkey
  · refine ⟨h, fun _ _ hd => hd, ?_⟩
    rw [hspelled (.inl (by simp [hd.1]))]
    exact .cons (fun _ => hd) .nil
  · refine ⟨h.promote hclass hk hlen, fun _ _ hd => hd.promote h.wellNamed hclass hk hlen, ?_⟩
    rw [hspelled (.inl (by simp [hclass]))]
    exact .cons (fun ha => decided_promote h.wellNamed (h.apart c ha) hclass hk hlen) .nil
  · refine ⟨h.setSingleton hclass hw, fun _ _ hd => hd.setSingleton h.wellNamed hclass, ?_⟩
    rw [hspelled (.inr hw)]
    exact .cons (fun _ => decided_setSingleton h.wellNamed hclass) .nil
  · refine ⟨h, fun _ _ hd => hd, ?_⟩
    have hnone : SymbolClass.classOf start.symbolClasses c = none := by
      refine classOf_eq_none_iff.2 (fun k hk hc => ?_)
      exact h.classOf_ne_none hk hc hclass
    have hwhite : start.symbolInfo c = .whiteDelimiter := by
      rw [Narrowing.symbolInfo_eq, hnone]
      exact if_pos (h.white ▸ hw)
    have hnil : spelled start [c] = [] := List.filter_cons_of_neg (by simp [hwhite])
    rw [hnil]
    exact .nil

/-- What was decided on the way is so at the end. -/
theorem Onward.forall₂ (h : n.Onward n') {cs : List Char} {keys : List String}
    (hk : List.Forall₂ (fun c key => start.Apart c → n.Decided c key) cs keys) :
    List.Forall₂ (fun c key => start.Apart c → n'.Decided c key) cs keys :=
  hk.imp (fun c key (hd : start.Apart c → n.Decided c key) ha => h c key (hd ha))

theorem Narrows.keys (h : Narrows start n) {text : List Char} {keys : List String}
    (hkeys : n.keys text = (keys, n')) :
    Narrows start n' ∧ n.Onward n' ∧
      List.Forall₂ (fun c key => start.Apart c → n'.Decided c key) (spelled start text) keys := by
  induction text generalizing n keys with
  | nil =>
    cases hkeys
    exact ⟨h, fun _ _ hd => hd, .nil⟩
  | cons c text ih =>
    rcases hfirst : n.key c with ⟨key, n₁⟩
    rcases hrest : n₁.keys text with ⟨rest, n₂⟩
    simp only [Narrowing.keys, hfirst, hrest, Prod.mk.injEq] at hkeys
    obtain ⟨rfl, rfl⟩ := hkeys
    obtain ⟨h₁, ho₁, hkey⟩ := h.key hfirst
    obtain ⟨h₂, ho₂, htext⟩ := ih h₁ hrest
    refine ⟨h₂, fun d name hd => ho₂ d name (ho₁ d name hd), ?_⟩
    have hsplit : spelled start (c :: text) = spelled start [c] ++ spelled start text :=
      List.filter_append [c] text
    rw [hsplit]
    exact List.rel_append (ho₂.forall₂ hkey) htext

/-- The keys of literals that are taken one after the other. -/
def spellings (n : Narrowing) : List String → List (List String) × Narrowing
  | [] => ([], n)
  | text :: rest =>
    let (keys, n) := n.keys text.toList
    let (spellings, n) := n.spellings rest
    (keys :: spellings, n)

theorem Narrows.spellings (h : Narrows start n) {texts : List String} {keys : List (List String)}
    (hkeys : n.spellings texts = (keys, n')) :
    Narrows start n' ∧ n.Onward n' ∧
      List.Forall₂ (fun text keys => List.Forall₂ (fun c key => start.Apart c → n'.Decided c key)
        (spelled start text.toList) keys) texts keys := by
  induction texts generalizing n keys with
  | nil =>
    cases hkeys
    exact ⟨h, fun _ _ hd => hd, .nil⟩
  | cons text texts ih =>
    rcases hfirst : n.keys text.toList with ⟨first, n₁⟩
    rcases hrest : n₁.spellings texts with ⟨rest, n₂⟩
    simp only [Narrowing.spellings, hfirst, hrest, Prod.mk.injEq] at hkeys
    obtain ⟨rfl, rfl⟩ := hkeys
    obtain ⟨h₁, ho₁, htext⟩ := h.keys hfirst
    obtain ⟨h₂, ho₂, htexts⟩ := ih h₁ hrest
    exact ⟨h₂, fun c name hd => ho₂ c name (ho₁ c name hd), .cons (ho₂.forall₂ htext) htexts⟩

/-- A character that does not stand apart has a key of its own, and another class. -/
theorem exists_stale (h : start.WellNamed) (hc : ¬start.Apart c) :
    ∃ n, (ofTable start).spellings [String.singleton c] = ([[String.singleton c]], n) ∧
      ∃ name, n.table.symbolInfo c = .classified name ∧ name ≠ String.singleton c := by
  simp only [ClassTable.Apart, not_forall, not_or] at hc
  obtain ⟨first, second, rest, hnames, hlone, hsecond⟩ := hc
  have hclass : (ofTable start).classOf c = some first := by
    unfold Narrowing.classOf
    rw [← head?_namesWith]
    exact congrArg List.head? hnames
  obtain ⟨name, hd, -⟩ | ⟨name, symbols, hname, hk, hlen, he⟩ | ⟨hnone, -⟩ | ⟨hnone, -⟩ :=
    key_cases_of_wellNamed (n := ofTable start) h c
  · obtain rfl := Option.some.inj (hclass.symm.trans hd.1)
    exact absurd hd.2 hlone
  · obtain rfl := Option.some.inj (hclass.symm.trans hname)
    have hkeys : (ofTable start).spellings [String.singleton c] =
        ([[String.singleton c]], (ofTable start).promote first symbols c) := by
      simp [Narrowing.spellings, Narrowing.keys, he]
    refine ⟨_, hkeys, second, ?_, hsecond⟩
    have hafter : SymbolClass.classOf
        ((ofTable start).promote first symbols c).table.symbolClasses c = some second := by
      rw [← head?_namesWith, namesWith_promote_self h hnames hk hlen]
      split <;> rfl
    rw [Narrowing.symbolInfo_eq, hafter]
  · cases hclass.symm.trans hnone
  · cases hclass.symm.trans hnone

/-- Narrowing loses no character and tells what it takes out of a class. Where a character stands
apart, its keys are the class that it has when all is done; where it does not, they need not be. -/
theorem spellings_faithful (h : start.WellNamed) :
    (∀ texts keys n, (ofTable start).spellings texts = (keys, n) →
      (∀ k ∈ start.symbolClasses, ∀ c ∈ k.symbols, ∃ k' ∈ n.table.symbolClasses, c ∈ k'.symbols) ∧
      (∀ k ∈ start.symbolClasses, n.table.classSymbols? k.name = some (n.left k)) ∧
      List.Forall₂ (fun text keys => List.Forall₂ (fun c key => start.Apart c →
        n.table.symbolInfo c = .classified key) (spelled start text.toList) keys) texts keys) ∧
    ∀ c, ¬start.Apart c →
      ∃ n, (ofTable start).spellings [String.singleton c] = ([[String.singleton c]], n) ∧
        ∃ name, n.table.symbolInfo c = .classified name ∧ name ≠ String.singleton c := by
  refine ⟨fun texts keys n hkeys => ?_, fun c hc => exists_stale h hc⟩
  obtain ⟨hn, -, hall⟩ := (narrows_ofTable h).spellings hkeys
  refine ⟨fun k hk c hc => ?_, hn.left, ?_⟩
  · obtain ⟨name, hname⟩ := Option.ne_none_iff_exists'.1 (hn.classOf_ne_none hk hc)
    obtain ⟨k', hk', -, hc'⟩ := SymbolClass.exists_of_classOf hname
    exact ⟨k', hk', hc'⟩
  · exact hall.imp (fun _ _ htext => htext.imp (fun _ _ hd ha => (hd ha).symbolInfo_eq))

/-- A table of these classes. -/
def tableOf (classes : List SymbolClass) : ClassTable :=
  { ClassTable.ofNames "keyword" "undefined" [' '] with symbolClasses := classes }

/-- A sign that is in two classes stands apart if the first of them is its own: its key is the class
that it is found in. The others are taken out of their classes. -/
theorem spellings_of_signs :
    let start := tableOf [⟨"letter", ['a', 'b', 'c']⟩, ⟨"+", ['+']⟩, ⟨"sign", ['+', '-']⟩]
    start.WellNamed ∧ (∀ c ∈ ['a', 'b', '+', '-'], start.Apart c) ∧
      ∃ n, (ofTable start).spellings ["ab", "+ b-"] = ([["a", "b"], ["+", "b", "-"]], n) ∧
        n.table.classSymbols? "letter" = some ['c'] ∧ n.table.classSymbols? "sign" = some ['+'] ∧
        (∃ k ∈ n.table.symbolClasses, 'a' ∈ k.symbols) ∧
        n.table.symbolInfo '+' = .classified "+" ∧ n.table.symbolInfo '-' = .classified "-" := by
  intro start
  have hnamed : start.WellNamed := by
    refine ⟨by decide, fun k hk c hc => ?_⟩
    have hlength : k.name.length = 1 := hc ▸ String.length_singleton
    have hone : ∀ k ∈ start.symbolClasses, k.name.length = 1 → k = ⟨String.singleton '+', ['+']⟩ := by
      decide
    obtain rfl := hone k hk hlength
    rw [String.singleton_inj.1 hc]
  have hapart : ∀ c ∈ ['a', 'b', '+', '-'], start.Apart c := by
    simp only [List.forall_mem_cons]
    exact ⟨by decide, by decide, by decide, by decide, List.forall_mem_nil _⟩
  obtain ⟨hkept, hleft, hkeys⟩ :=
    (spellings_faithful hnamed).1 ["ab", "+ b-"] [["a", "b"], ["+", "b", "-"]] _ rfl
  have hspelled : spelled start "+ b-".toList = ['+', 'b', '-'] := by decide
  obtain ⟨-, hsigns⟩ := List.forall₂_cons.1 hkeys
  rw [List.forall₂_cons, hspelled] at hsigns
  obtain ⟨hplus, hrest⟩ := List.forall₂_cons.1 hsigns.1
  obtain ⟨-, hminus⟩ := List.forall₂_cons.1 hrest
  refine ⟨hnamed, hapart, _, rfl, ?_, ?_, ?_, ?_, ?_⟩
  · exact (hleft ⟨"letter", ['a', 'b', 'c']⟩ (by decide)).trans (by decide)
  · exact (hleft ⟨"sign", ['+', '-']⟩ (by decide)).trans (by decide)
  · exact hkept ⟨"letter", ['a', 'b', 'c']⟩ (by decide) 'a' (by decide)
  · exact hplus (hapart '+' (by decide))
  · exact (List.forall₂_cons.1 hminus).1 (hapart '-' (by decide))

/-- A character that is in two classes is taken out of the first one, and is found in the second
one from then on. A class of the name of a character that is taken for a literal is overwritten. -/
theorem spellings_unfaithful :
    (∃ n, (ofTable (tableOf [⟨"letter", ['a', 'b']⟩, ⟨"digit", ['b', '1']⟩])).spellings ["b"] =
        ([["b"]], n) ∧ n.table.symbolInfo 'b' = .classified "digit") ∧
    ∃ n, (ofTable (tableOf [⟨"b", ['b', 'x']⟩])).spellings ["b"] = ([["b"]], n) ∧
      ∀ k ∈ n.table.symbolClasses, 'x' ∉ k.symbols :=
  ⟨⟨_, rfl, by decide⟩, _, rfl, by decide⟩

end Narrowing

end Syntagma
