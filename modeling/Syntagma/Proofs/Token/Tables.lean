import Mathlib.Data.List.Nodup
import Syntagma.Proofs.Dictionary
import Syntagma.Proofs.Distinct
import Syntagma.Token.Tables

/-! What the tables of a script's tokens hold. The names and the slots of a class are looked up in each
other, and the names are those of the tokens of the class, each at its first appearance. Names only
come behind those that are there, so a slot that a token was given stays that of its name. -/

namespace Syntagma

/-! ### One class -/

namespace ClassEntries

variable {t : ClassEntries} {name n : String} {slot : Nat}

/-- Each name is in the slot that it has. -/
def Indexed (t : ClassEntries) : Prop :=
  ∀ name slot, t.slot? name = some slot ↔ t.names[slot]? = some name

theorem indexed_empty : empty.Indexed := fun _ _ => ⟨nofun, nofun⟩

theorem Indexed.not_mem_names (h : t.Indexed) (hnone : t.slot? name = none) : name ∉ t.names := by
  intro hmem
  obtain ⟨slot, hslot⟩ := List.mem_iff_getElem?.1 hmem
  exact nomatch hnone.symm.trans ((h name slot).2 hslot)

/-- No name has two slots. -/
theorem Indexed.nodup (h : t.Indexed) : t.names.Nodup := by
  refine List.nodup_iff_injective_get.2 (fun i j he => Fin.ext ?_)
  have hi := (h _ i).2 (List.getElem?_eq_getElem i.2)
  have hj := (h _ j).2 (List.getElem?_eq_getElem j.2)
  exact Option.some.inj (hi.symm.trans ((congrArg t.slot? he).trans hj))

theorem Indexed.concat (h : t.Indexed) (hnew : t.slot? name = none) :
    (⟨t.names ++ [name], t.slots.insert name t.names.length⟩ : ClassEntries).Indexed := by
  intro n slot
  have hout := h.not_mem_names hnew
  have hslot : (t.slots.insert name t.names.length).get? n = some slot ↔
      (n = name ∧ slot = t.names.length) ∨ (n ≠ name ∧ t.names[slot]? = some n) :=
    Dictionary.get?_insert_eq_some_iff.trans (or_congr_right (and_congr_right (fun _ => h n slot)))
  have hname : (t.names ++ [name])[slot]? = some n ↔
      (n = name ∧ slot = t.names.length) ∨ (n ≠ name ∧ t.names[slot]? = some n) := by
    have hne (hn : t.names[slot]? = some n) : n ≠ name := by
      rintro rfl
      exact hout (List.mem_of_getElem? hn)
    rcases Nat.lt_trichotomy slot t.names.length with hlt | rfl | hgt
    · rw [List.getElem?_append_left hlt]
      simp [Nat.ne_of_lt hlt, and_iff_right_of_imp hne]
    · simp [eq_comm]
    · have hlength : (t.names ++ [name]).length ≤ slot := by
        rw [List.length_append, List.length_singleton]
        exact hgt
      rw [List.getElem?_eq_none hlength, List.getElem?_eq_none (Nat.le_of_lt hgt)]
      simp [Nat.ne_of_gt hgt]
  exact hslot.trans hname.symm

/-- The name is in the slot that is handed out, and comes behind the others if it is new. -/
theorem Indexed.intern (h : t.Indexed) (name : String) :
    (t.intern name).2.Indexed ∧ (t.intern name).2.names[(t.intern name).1]? = some name ∧
      (t.intern name).2.names = if name ∈ t.names then t.names else t.names ++ [name] := by
  unfold ClassEntries.intern
  split
  next slot hslot =>
    have hname := (h name slot).1 hslot
    exact ⟨h, hname, (if_pos (List.mem_of_getElem? hname)).symm⟩
  next hnew => exact ⟨h.concat hnew, by simp, (if_neg (h.not_mem_names hnew)).symm⟩

end ClassEntries

/-! ### All classes -/

namespace TokenTables

variable {tables : Dictionary TokenClassId ClassEntries} {seen tokens rest : List Token} {token : Token}
  {c : TokenClassId}

/-- The names of the tokens of a class, each at its first appearance. -/
def namesOf (tokens : List Token) (c : TokenClassId) : List String :=
  ((tokens.filter (·.classId == c)).map (·.name)).eraseDups

theorem mem_namesOf {name : String} :
    name ∈ namesOf tokens c ↔ ∃ token ∈ tokens, token.classId = c ∧ token.name = name := by
  simp [namesOf, and_assoc]

/-- Names of further tokens come behind, so a slot stays that of its name. -/
theorem getElem?_namesOf_append {slot : Nat} {name : String}
    (h : (namesOf seen c)[slot]? = some name) (rest : List Token) :
    (namesOf (seen ++ rest) c)[slot]? = some name := by
  unfold namesOf at h ⊢
  rw [List.filter_append, List.map_append, List.eraseDups_append,
    List.getElem?_append_left (List.getElem?_eq_some_iff.1 h).1, h]

theorem namesOf_concat (seen : List Token) (token : Token) (c : TokenClassId) :
    namesOf (seen ++ [token]) c =
      if token.classId = c ∧ token.name ∉ namesOf seen c then namesOf seen c ++ [token.name]
      else namesOf seen c := by
  unfold namesOf
  rw [List.filter_append, List.map_append]
  by_cases hc : token.classId = c
  · have hlast : ([token].filter (·.classId == c)).map (·.name) = [token.name] := by simp [hc]
    rw [hlast, Distinct.eraseDups_concat]
    by_cases hmem : token.name ∈ (seen.filter (·.classId == c)).map (·.name)
    · rw [if_pos hmem, if_neg (fun h => h.2 (List.mem_eraseDups.2 hmem))]
    · rw [if_neg hmem, if_pos ⟨hc, fun h => hmem (List.mem_eraseDups.1 h)⟩]
  · simp [hc]

/-- The tables that the tokens leave. -/
structure Tabled (seen : List Token) (tables : Dictionary TokenClassId ClassEntries) : Prop where
  indexed (c : TokenClassId) : ((tables.get? c).getD .empty).Indexed
  names (c : TokenClassId) : ((tables.get? c).getD .empty).names = namesOf seen c
  there (c : TokenClassId) : (tables.get? c).isSome ↔ ∃ token ∈ seen, token.classId = c

theorem tabled_empty : Tabled [] .empty where
  indexed _ := ClassEntries.indexed_empty
  names _ := rfl
  there _ := ⟨nofun, fun ⟨_, hmem, _⟩ => nomatch hmem⟩

/-- Entering a token: its name gets a slot in the table of its class, and the other tables stay. -/
theorem Tabled.concat (h : Tabled seen tables) (token : Token) {slot : Nat} {table : ClassEntries}
    (hi : ((tables.get? token.classId).getD .empty).intern token.name = (slot, table)) :
    Tabled (seen ++ [token]) (tables.insert token.classId table) ∧
      (namesOf (seen ++ [token]) token.classId)[slot]? = some token.name := by
  obtain ⟨hindexed, hslot, hnames⟩ := (h.indexed token.classId).intern token.name
  rw [hi] at hindexed hslot hnames
  have htable : table.names = namesOf (seen ++ [token]) token.classId := by
    rw [hnames, h.names, namesOf_concat]
    by_cases hmem : token.name ∈ namesOf seen token.classId <;> simp [hmem]
  refine ⟨⟨fun c => ?_, fun c => ?_, fun c => ?_⟩, htable ▸ hslot⟩
  all_goals rw [Dictionary.get?_insert]
  · split
    · exact hindexed
    · exact h.indexed c
  · split
    next he => rw [he, Option.getD_some, htable]
    next he => rw [h.names, namesOf_concat, if_neg (fun hc => he hc.1.symm)]
  · split
    next he => simp [he]
    next he => simp [h.there c, Ne.symm he]

/-- Entering tokens: each of them has its place, in which its name is found in the end. -/
theorem Tabled.enter (h : Tabled seen tables) (rest : List Token) :
    Tabled (seen ++ rest) (enter tables rest).tables ∧
      (TokenTables.enter tables rest).entries.length = rest.length ∧
      ∀ (i : Nat) (token : Token), rest[i]? = some token → ∃ slot,
        (TokenTables.enter tables rest).entries[i]? = some ⟨token.name, token.classId, slot⟩ ∧
          (namesOf (seen ++ rest) token.classId)[slot]? = some token.name := by
  induction rest generalizing seen tables with
  | nil =>
    rw [List.append_nil]
    exact ⟨h, rfl, nofun⟩
  | cons first rest ih =>
    rcases hi : ((tables.get? first.classId).getD .empty).intern first.name with ⟨slot, table⟩
    obtain ⟨hfirst, hslot⟩ := h.concat first hi
    obtain ⟨hrest, hlength, hentries⟩ := ih hfirst
    rw [List.append_assoc, List.singleton_append] at hrest hentries
    have henter : TokenTables.enter tables (first :: rest) =
        ⟨(TokenTables.enter (tables.insert first.classId table) rest).tables,
          ⟨first.name, first.classId, slot⟩ ::
            (TokenTables.enter (tables.insert first.classId table) rest).entries⟩ := by
      rw [TokenTables.enter, hi]
    rw [henter]
    refine ⟨hrest, congrArg (· + 1) hlength, fun i token ht => ?_⟩
    cases i with
    | zero =>
      obtain rfl := Option.some.inj ht
      refine ⟨slot, rfl, ?_⟩
      have hlater := getElem?_namesOf_append hslot rest
      rwa [List.append_assoc, List.singleton_append] at hlater
    | succ i => exact hentries i token ht

/-! ### The tables of a script -/

theorem ofTokens_tabled (tokens : List Token) :
    Tabled tokens (ofTokens tokens).tables ∧ (ofTokens tokens).entries.length = tokens.length ∧
      ∀ (i : Nat) (token : Token), tokens[i]? = some token → ∃ slot,
        (ofTokens tokens).entries[i]? = some ⟨token.name, token.classId, slot⟩ ∧
          (namesOf tokens token.classId)[slot]? = some token.name :=
  tabled_empty.enter tokens

theorem Tabled.table (h : Tabled tokens tables) {table : ClassEntries}
    (hget : tables.get? c = some table) : table.Indexed ∧ table.names = namesOf tokens c := by
  have hindexed := h.indexed c
  have hnames := h.names c
  rw [hget] at hindexed hnames
  exact ⟨hindexed, hnames⟩

theorem nodup_namesOf (tokens : List Token) (c : TokenClassId) : (namesOf tokens c).Nodup :=
  Distinct.nodup_eraseDups _

/-- A name has one slot. -/
theorem slot_inj {slot slot' : Nat} {name : String} (h : (namesOf tokens c)[slot]? = some name)
    (h' : (namesOf tokens c)[slot']? = some name) : slot = slot' :=
  (List.getElem?_inj (List.getElem?_eq_some_iff.1 h).1 (nodup_namesOf tokens c)).1 (h.trans h'.symm)

/-- The name in the slot before that of a token appears before the token. -/
theorem exists_earlier {j slot : Nat} (hj : tokens[j]? = some token)
    (hslot : (namesOf tokens token.classId)[slot + 1]? = some token.name) :
    ∃ i earlier, i < j ∧ tokens[i]? = some earlier ∧ earlier.classId = token.classId ∧
      (namesOf tokens token.classId)[slot]? = some earlier.name := by
  have hsplit : tokens.take (j + 1) ++ tokens.drop (j + 1) = tokens := List.take_append_drop _ _
  -- the names up to the token begin the list, and its own is one of them
  have hlater {k : Nat} {name : String}
      (hk : (namesOf (tokens.take (j + 1)) token.classId)[k]? = some name) :
      (namesOf tokens token.classId)[k]? = some name := by
    have h := getElem?_namesOf_append hk (tokens.drop (j + 1))
    rwa [hsplit] at h
  have htaken : (tokens.take (j + 1))[j]? = some token := by
    rw [List.getElem?_take_of_lt (Nat.lt_succ_self j), hj]
  obtain ⟨k, hk⟩ := List.mem_iff_getElem?.1
    (mem_namesOf.2 ⟨token, List.mem_of_getElem? htaken, rfl, rfl⟩)
  obtain rfl : k = slot + 1 := slot_inj (hlater hk) hslot
  have hlt : slot < (namesOf (tokens.take (j + 1)) token.classId).length :=
    Nat.lt_of_succ_lt (List.getElem?_eq_some_iff.1 hk).1
  have hname := List.getElem?_eq_getElem hlt
  obtain ⟨earlier, hmem, hclass, he⟩ := mem_namesOf.1 (List.mem_of_getElem? hname)
  obtain ⟨i, hi⟩ := List.mem_iff_getElem?.1 hmem
  rw [← he] at hname
  rw [List.getElem?_take] at hi
  obtain ⟨hle, hget⟩ := Option.ite_none_right_eq_some.1 hi
  refine ⟨i, earlier, Nat.lt_of_le_of_ne (Nat.le_of_lt_succ hle) ?_, hget, hclass, hlater hname⟩
  rintro rfl
  have hsame : token = earlier := Option.some.inj (hj.symm.trans hget)
  rw [← hsame] at hname
  exact Nat.succ_ne_self slot (slot_inj hslot (hlater hname))

/-- Every token has its place in the table of its class, where its name is found in its slot and the
slot by its name. The names of a class are distinct and in order of first appearance, so that each
slot is used before the next one, and the classes with a table are those of the tokens. -/
theorem ofTokens_by_first_appearance (tokens : List Token) :
    let t := ofTokens tokens
    t.entries.length = tokens.length ∧
      (∀ (i : Nat) (token : Token), tokens[i]? = some token → ∃ slot table,
        t.entries[i]? = some ⟨token.name, token.classId, slot⟩ ∧
          t.table? token.classId = some table ∧ table.names[slot]? = some token.name ∧
          table.slot? token.name = some slot) ∧
      (∀ c table, t.table? c = some table → table.names.Nodup ∧ table.names = namesOf tokens c ∧
        ∀ name slot, table.slot? name = some slot ↔ table.names[slot]? = some name) ∧
      (∀ (j slot : Nat) (name : String) (c : TokenClassId),
        t.entries[j]? = some ⟨name, c, slot + 1⟩ →
          ∃ i earlier, i < j ∧ t.entries[i]? = some ⟨earlier, c, slot⟩) ∧
      ∀ c, (t.table? c).isSome ↔ ∃ token ∈ tokens, token.classId = c := by
  intro t
  obtain ⟨htabled, hlength, hentries⟩ := ofTokens_tabled tokens
  refine ⟨hlength, fun i token hi => ?_, fun c table h => ?_, fun j slot name c hj => ?_,
    htabled.there⟩
  · obtain ⟨slot, hentry, hslot⟩ := hentries i token hi
    obtain ⟨table, h⟩ := Option.isSome_iff_exists.1
      ((htabled.there token.classId).2 ⟨token, List.mem_of_getElem? hi, rfl⟩)
    obtain ⟨hindexed, hnames⟩ := htabled.table h
    rw [← hnames] at hslot
    exact ⟨slot, table, hentry, h, hslot, (hindexed token.name slot).2 hslot⟩
  · obtain ⟨hindexed, hnames⟩ := htabled.table h
    exact ⟨hindexed.nodup, hnames, hindexed⟩
  · have hlt : j < tokens.length := hlength ▸ (List.getElem?_eq_some_iff.1 hj).1
    have htoken := List.getElem?_eq_getElem hlt
    obtain ⟨slot', hentry, hslot⟩ := hentries j _ htoken
    cases hentry.symm.trans hj
    obtain ⟨i, earlier, hij, hi, hclass, hname⟩ := exists_earlier htoken hslot
    obtain ⟨slot', hentry', hslot'⟩ := hentries i earlier hi
    rw [hclass] at hentry' hslot'
    obtain rfl := slot_inj hslot' hname
    exact ⟨i, earlier.name, hij, hentry'⟩

/-- The tokens of two assignments between two identifiers, which have a class of their own. -/
def assignments : List Token :=
  [("b", 1), (":=", 0), ("a", 1), (";", 0), ("a", 1), (":=", 0), ("b", 1)].map
    (fun (name, c) => ⟨name, some 0, c, .start⟩)

theorem ofTokens_assignments :
    (∃ slot table, (ofTokens assignments).entries[4]? = some ⟨"a", 1, slot⟩ ∧
        (ofTokens assignments).table? 1 = some table ∧ table.names[slot]? = some "a" ∧
        table.slot? "a" = some slot) ∧
      (∃ i earlier, i < 2 ∧ (ofTokens assignments).entries[i]? = some ⟨earlier, 1, 0⟩) ∧
      namesOf assignments 1 = ["b", "a"] ∧ ((ofTokens assignments).table? 0).isSome := by
  obtain ⟨-, hplaces, -, hearlier, htables⟩ := ofTokens_by_first_appearance assignments
  exact ⟨hplaces 4 _ rfl, hearlier 2 0 "a" 1 (by decide +kernel), by decide +kernel,
    (htables 0).2 ⟨_, List.mem_of_getElem? (i := 1) rfl, rfl⟩⟩

end TokenTables

end Syntagma
