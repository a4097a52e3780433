import Mathlib.Data.List.Induction
import Syntagma.Proofs.Dictionary
import Syntagma.Token.ClassMap

/-! What a map of token classes holds after any sequence of changes. A pair stays until its name or
its number is paired anew, whichever side it is looked up from, so names and numbers are looked up in
each other. A new name gets a number that no name has, up to the number below the reserved one: once
that is taken, the reserved number is handed out. -/

namespace Syntagma.TokenClassMap

variable {m : TokenClassMap} {name n : String} {id i : TokenClassId}

/-- Each name is looked up in the number that it has, and each number in its name. -/
def Paired (m : TokenClassMap) : Prop := ∀ name id, m.idOf name = some id ↔ m.nameOf id = some name

theorem paired_empty : empty.Paired := fun _ _ => ⟨nofun, nofun⟩

/-! ### Pairs that are forgotten -/

theorem idOf_eraseName : (m.eraseName name).idOf n = some i ↔ n ≠ name ∧ m.idOf n = some i := by
  unfold eraseName
  split
  next => exact Dictionary.get?_erase_eq_some_iff
  next hnone =>
    refine ⟨fun hn => ⟨?_, hn⟩, And.right⟩
    rintro rfl
    exact nomatch hnone.symm.trans hn

/-- The number of the forgotten name is the only one that goes. -/
theorem Paired.nameOf_eraseName (h : m.Paired) :
    (m.eraseName name).nameOf i = some n ↔ n ≠ name ∧ m.nameOf i = some n := by
  unfold eraseName
  split
  next id hid =>
    refine Dictionary.get?_erase_eq_some_iff.trans (and_congr_left (fun hn => not_congr ?_))
    have hi : m.idOf n = some i := (h n i).2 hn
    constructor
    · rintro rfl
      exact Option.some.inj (hn.symm.trans ((h name i).1 hid))
    · rintro rfl
      exact Option.some.inj (hi.symm.trans hid)
  next hnone =>
    refine ⟨fun hn => ⟨?_, hn⟩, And.right⟩
    rintro rfl
    exact nomatch hnone.symm.trans ((h n i).2 hn)

theorem Paired.eraseName (h : m.Paired) (name : String) : (m.eraseName name).Paired := fun n i => by
  rw [idOf_eraseName, h.nameOf_eraseName, h n i]

theorem nameOf_eraseId : (m.eraseId id).nameOf i = some n ↔ i ≠ id ∧ m.nameOf i = some n := by
  unfold eraseId
  split
  next => exact Dictionary.get?_erase_eq_some_iff
  next hnone =>
    refine ⟨fun hi => ⟨?_, hi⟩, And.right⟩
    rintro rfl
    exact nomatch hnone.symm.trans hi

/-- The name of the forgotten number is the only one that goes. -/
theorem Paired.idOf_eraseId (h : m.Paired) :
    (m.eraseId id).idOf n = some i ↔ i ≠ id ∧ m.idOf n = some i := by
  unfold eraseId
  split
  next name hname =>
    refine Dictionary.get?_erase_eq_some_iff.trans (and_congr_left (fun hi => not_congr ?_))
    have hn : m.nameOf i = some n := (h n i).1 hi
    constructor
    · rintro rfl
      exact Option.some.inj (hi.symm.trans ((h n id).2 hname))
    · rintro rfl
      exact Option.some.inj (hn.symm.trans hname)
  next hnone =>
    refine ⟨fun hi => ⟨?_, hi⟩, And.right⟩
    rintro rfl
    exact nomatch hnone.symm.trans ((h n i).1 hi)

/-! ### Pairs that are put in -/

/-- A new pair leaves the pairs that share neither its name nor its number. -/
theorem Paired.idOf_insert (h : m.Paired) : (m.insert name id).idOf n = some i ↔
    (n = name ∧ i = id) ∨ (n ≠ name ∧ i ≠ id ∧ m.idOf n = some i) := by
  refine Dictionary.get?_insert_eq_some_iff.trans (or_congr_right (and_congr_right (fun hn => ?_)))
  refine (h.eraseName name).idOf_eraseId.trans (and_congr_right (fun _ => ?_))
  exact idOf_eraseName.trans (and_iff_right hn)

theorem Paired.nameOf_insert (h : m.Paired) : (m.insert name id).nameOf i = some n ↔
    (n = name ∧ i = id) ∨ (n ≠ name ∧ i ≠ id ∧ m.nameOf i = some n) := by
  refine Dictionary.get?_insert_eq_some_iff.trans (or_congr and_comm ?_)
  refine Iff.trans (and_congr_right (fun hi => ?_)) and_left_comm
  refine nameOf_eraseId.trans ((and_iff_right hi).trans ?_)
  exact h.nameOf_eraseName

theorem Paired.insert (h : m.Paired) (name : String) (id : TokenClassId) :
    (m.insert name id).Paired := fun n i => by
  rw [h.idOf_insert, h.nameOf_insert, h n i]

/-! ### Sequences of changes -/

/-- What is done to a map: a name is put in with a number, or its number is asked for. -/
inductive Change where
  | insert (name : String) (id : TokenClassId)
  | intern (name : String)

namespace Change

def apply (m : TokenClassMap) : Change → TokenClassMap
  | .insert name id => m.insert name id
  | .intern name => (m.intern name).2

/-- The pair that the change puts in; a name that has a number is not put in again. -/
def pair? (m : TokenClassMap) : Change → Option (String × TokenClassId)
  | .insert name id => some (name, id)
  | .intern name =>
    match m.idOf name with
    | some _ => none
    | none => some (name, m.nextId)

end Change

/-- The map that comes of the changes. -/
def ofChanges (changes : List Change) : TokenClassMap := changes.foldl Change.apply empty

/-- The pairs that the changes put in, in order. -/
def pairsFrom (m : TokenClassMap) : List Change → List (String × TokenClassId)
  | [] => []
  | change :: rest => (change.pair? m).toList ++ pairsFrom (change.apply m) rest

def pairsOf (changes : List Change) : List (String × TokenClassId) := pairsFrom empty changes

def insertAll (m : TokenClassMap) (pairs : List (String × TokenClassId)) : TokenClassMap :=
  pairs.foldl (fun m p => m.insert p.1 p.2) m

theorem insertAll_pair? (m : TokenClassMap) (change : Change) :
    m.insertAll (change.pair? m).toList = change.apply m := by
  cases change with
  | insert name id => rfl
  | intern name =>
    unfold Change.pair? Change.apply intern
    dsimp only
    cases m.idOf name <;> rfl

theorem foldl_apply (m : TokenClassMap) (changes : List Change) :
    changes.foldl Change.apply m = m.insertAll (pairsFrom m changes) := by
  induction changes generalizing m with
  | nil => rfl
  | cons change rest ih =>
    calc (change :: rest).foldl Change.apply m
      _ = (change.apply m).insertAll (pairsFrom (change.apply m) rest) := ih _
      _ = (m.insertAll (change.pair? m).toList).insertAll (pairsFrom (change.apply m) rest) := by
        rw [insertAll_pair?]
      _ = m.insertAll (pairsFrom m (change :: rest)) := List.foldl_append.symm

theorem ofChanges_eq (changes : List Change) : ofChanges changes = empty.insertAll (pairsOf changes) :=
  foldl_apply empty changes

theorem Paired.insertAll (h : m.Paired) (pairs : List (String × TokenClassId)) :
    (m.insertAll pairs).Paired := by
  induction pairs generalizing m with
  | nil => exact h
  | cons p rest ih => exact ih (h.insert p.1 p.2)

theorem paired_ofChanges (changes : List Change) : (ofChanges changes).Paired :=
  ofChanges_eq changes ▸ paired_empty.insertAll _

/-- The pair is among the pairs, and behind it neither its name nor its number is paired anew. -/
def Stands (pairs : List (String × TokenClassId)) (name : String) (id : TokenClassId) : Prop :=
  ∃ before after, pairs = before ++ (name, id) :: after ∧ ∀ p ∈ after, p.1 ≠ name ∧ p.2 ≠ id

theorem stands_concat {pairs : List (String × TokenClassId)} : Stands (pairs ++ [(name, id)]) n i ↔
    (n = name ∧ i = id) ∨ (n ≠ name ∧ i ≠ id ∧ Stands pairs n i) := by
  constructor
  · rintro ⟨before, after, he, hlater⟩
    rcases List.eq_nil_or_concat' after with rfl | ⟨rest, last, rfl⟩
    · obtain ⟨-, hlast⟩ := List.append_inj' he rfl
      cases hlast
      exact .inl ⟨rfl, rfl⟩
    · rw [← List.cons_append, ← List.append_assoc] at he
      obtain ⟨rfl, hlast⟩ := List.append_inj' he rfl
      cases hlast
      obtain ⟨hn, hi⟩ := hlater (name, id) (by simp)
      exact .inr ⟨hn.symm, hi.symm, before, rest, rfl,
        fun p hp => hlater p (List.mem_append_left _ hp)⟩
  · rintro (⟨rfl, rfl⟩ | ⟨hn, hi, before, after, rfl, hlater⟩)
    · exact ⟨pairs, [], rfl, List.forall_mem_nil _⟩
    · refine ⟨before, after ++ [(name, id)], by simp, fun p hp => ?_⟩
      rcases List.mem_append.1 hp with hp | hp
      · exact hlater p hp
      · rw [List.mem_singleton.1 hp]
        exact ⟨hn.symm, hi.symm⟩

theorem idOf_insertAll_empty (pairs : List (String × TokenClassId)) :
    (empty.insertAll pairs).idOf n = some i ↔ Stands pairs n i := by
  induction pairs using List.reverseRecOn generalizing n i with
  | nil => exact ⟨nofun, fun ⟨before, after, he, _⟩ => by simp at he⟩
  | append_singleton pairs p ih =>
    rw [insertAll, List.foldl_append]
    exact (paired_empty.insertAll pairs).idOf_insert.trans
      ((or_congr_right (and_congr_right (fun _ => and_congr_right (fun _ => ih)))).trans
        stands_concat.symm)

/-- A map holds the pairs that were put in and of which neither side was paired anew, whichever side
they are looked up from. So the pair that was put in last is there. -/
theorem lookups_of_changes (changes : List Change) :
    let m := ofChanges changes
    (∀ name id, m.idOf name = some id ↔ m.nameOf id = some name) ∧
      (∀ name id, m.idOf name = some id ↔ Stands (pairsOf changes) name id) ∧
      ∀ p ∈ (pairsOf changes).getLast?, m.idOf p.1 = some p.2 ∧ m.nameOf p.2 = some p.1 := by
  intro m
  have hpaired : m.Paired := paired_ofChanges changes
  have hstands (name : String) (id : TokenClassId) :
      m.idOf name = some id ↔ Stands (pairsOf changes) name id := by
    unfold m
    rw [ofChanges_eq, idOf_insertAll_empty]
  refine ⟨hpaired, hstands, fun p hp => ?_⟩
  obtain ⟨before, he⟩ := List.getLast?_eq_some_iff.1 hp
  have hlast : m.idOf p.1 = some p.2 :=
    (hstands p.1 p.2).2 ⟨before, [], he, List.forall_mem_nil _⟩
  exact ⟨hlast, (hpaired p.1 p.2).1 hlast⟩

/-- A pair that collides with one pair by its name and with another by its number takes the place of
both. A name that is there is not put in again. -/
theorem lookups_of_collisions :
    let changes := [.insert "word" 1, .insert "number" 2, .insert "word" 2, .intern "number",
      .intern "word"]
    pairsOf changes = [("word", 1), ("number", 2), ("word", 2), ("number", 3)] ∧
      (ofChanges changes).idOf "number" = some 3 ∧ (ofChanges changes).nameOf 3 = some "number" ∧
      (ofChanges changes).idOf "word" = some 2 ∧ (ofChanges changes).nameOf 1 = none := by
  have hpairs : pairsOf [.insert "word" 1, .insert "number" 2, .insert "word" 2, .intern "number",
      .intern "word"] = [("word", 1), ("number", 2), ("word", 2), ("number", 3)] := by decide +kernel
  obtain ⟨-, hstands, hlast⟩ := lookups_of_changes [.insert "word" 1, .insert "number" 2,
    .insert "word" 2, .intern "number", .intern "word"]
  obtain ⟨hid, hname⟩ := hlast ("number", 3) (by rw [hpairs]; rfl)
  refine ⟨hpairs, hid, hname, (hstands "word" 2).2 ?_, by decide +kernel⟩
  rw [hpairs]
  exact ⟨[("word", 1), ("number", 2)], [("number", 3)], rfl, by decide⟩

/-! ### The next number -/

theorem lt_succ_of_ne (h : id ≠ .undefined) : id < id + 1 := by
  have hmax : id.toNat ≠ 4294967295 := fun he => h (UInt32.toNat_inj.1 he)
  have hlt := id.toNat_lt
  rw [UInt32.lt_iff_toNat_lt, UInt32.toNat_add, UInt32.toNat_one, Nat.mod_eq_of_lt (by omega)]
  exact Nat.lt_succ_self _

/-- The fold ends behind all numbers, and right behind one of them if it moves at all. -/
theorem foldl_max_succ (ids : List TokenClassId) (hids : ∀ id ∈ ids, id ≠ .undefined)
    (first : TokenClassId) :
    first ≤ ids.foldl (fun n id => max n (id + 1)) first ∧
      (∀ id ∈ ids, id < ids.foldl (fun n id => max n (id + 1)) first) ∧
      (ids.foldl (fun n id => max n (id + 1)) first = first ∨
        ∃ id ∈ ids, ids.foldl (fun n id => max n (id + 1)) first = id + 1) := by
  induction ids generalizing first with
  | nil => exact ⟨UInt32.le_refl first, List.forall_mem_nil _, .inl rfl⟩
  | cons id ids ih =>
    obtain ⟨hid, hids⟩ := List.forall_mem_cons.1 hids
    obtain ⟨hle, hlt, he⟩ := ih hids (max first (id + 1))
    have hmax : max first (id + 1) = if first ≤ id + 1 then id + 1 else first := rfl
    have hsucc := lt_succ_of_ne hid
    have hfirst : first ≤ max first (id + 1) := by grind
    have hnext : id < max first (id + 1) := by grind
    rw [List.foldl_cons]
    refine ⟨UInt32.le_trans hfirst hle, List.forall_mem_cons.2 ⟨?_, hlt⟩, ?_⟩
    · exact UInt32.lt_of_lt_of_le hnext hle
    · rcases he with he | ⟨other, ho, he⟩
      · rw [he, hmax]
        split
        · exact .inr ⟨id, List.mem_cons_self, rfl⟩
        · exact .inl rfl
      · exact .inr ⟨other, List.mem_cons_of_mem id ho, he⟩

theorem mem_usedIds_iff : i ∈ m.byId.keys.filter (fun id => !id.isUndefined) ↔
    i ≠ .undefined ∧ ∃ n, m.nameOf i = some n := by
  rw [List.mem_filter, Dictionary.mem_keys_iff, Option.isSome_iff_exists, and_comm]
  simp [TokenClassId.isUndefined, nameOf]

/-- The next number is behind all numbers in use but the reserved one. -/
theorem nextId_spec (m : TokenClassMap) :
    (∀ i n, i ≠ .undefined → m.nameOf i = some n → i < m.nextId) ∧
      (m.nextId = 0 ∨ ∃ i n, i ≠ .undefined ∧ m.nameOf i = some n ∧ m.nextId = i + 1) := by
  obtain ⟨-, hlt, he⟩ := foldl_max_succ (m.byId.keys.filter (fun id => !id.isUndefined))
    (fun i hi => (mem_usedIds_iff.1 hi).1) 0
  refine ⟨fun i n hi hn => hlt i (mem_usedIds_iff.2 ⟨hi, n, hn⟩), he.imp_right ?_⟩
  rintro ⟨i, hi, he⟩
  obtain ⟨hne, n, hn⟩ := mem_usedIds_iff.1 hi
  exact ⟨i, n, hne, hn, he⟩

/-- The reserved number is the next one exactly if the number below it is in use. -/
theorem nextId_eq_undefined_iff :
    m.nextId = .undefined ↔ m.nameOf (.undefined - 1) ≠ none := by
  obtain ⟨hlt, he⟩ := nextId_spec m
  constructor
  · intro hnext
    rw [hnext] at he
    rcases he with he | ⟨i, n, -, hn, he⟩
    · cases he
    · have hi : .undefined - 1 = i := by rw [he]; exact UInt32.add_sub_cancel i 1
      rw [hi, hn]
      exact Option.some_ne_none n
  · intro hname
    obtain ⟨n, hn⟩ := Option.ne_none_iff_exists'.1 hname
    have hlast := hlt _ n (by decide) hn
    rw [UInt32.lt_iff_toNat_lt] at hlast
    have hbound := m.nextId.toNat_lt
    have hsize : (TokenClassId.undefined - 1).toNat = 4294967294 := rfl
    refine UInt32.toNat_inj.1 ?_
    have hundefined : TokenClassId.undefined.toNat = 4294967295 := rfl
    omega

/-- Below the reserved number the next number is one that no name has. -/
theorem nameOf_nextId (h : m.nextId ≠ .undefined) : m.nameOf m.nextId = none := by
  refine Option.eq_none_iff_forall_ne_some.2 (fun n hn => ?_)
  exact UInt32.lt_irrefl _ ((nextId_spec m).1 _ n h hn)

/-! ### New names -/

theorem intern_of_idOf_eq_none (h : m.idOf name = none) :
    m.intern name = (m.nextId, m.insert name m.nextId) := by
  unfold intern
  rw [h]

/-- What holds neither the new name nor its number is kept on either side. -/
theorem Paired.kept_insert (h : m.Paired) (hnew : m.idOf name = none) (hi : i ≠ id) :
    (m.idOf n = some i → (m.insert name id).idOf n = some i) ∧
      (m.nameOf i = some n → (m.insert name id).nameOf i = some n) := by
  have hne (hn : m.idOf n = some i) : n ≠ name := by
    rintro rfl
    exact nomatch hnew.symm.trans hn
  exact ⟨fun hn => h.idOf_insert.2 (.inr ⟨hne hn, hi, hn⟩),
    fun hn => h.nameOf_insert.2 (.inr ⟨hne ((h n i).2 hn), hi, hn⟩)⟩

/-- As long as the number below the reserved one is free, a new name gets a number that no name has
and that is not the reserved one, and every pair is kept. Otherwise it gets the reserved number, and
every pair without this is kept. -/
theorem intern_new_name (changes : List Change) (name : String)
    (hnew : (ofChanges changes).idOf name = none) :
    let m := ofChanges changes
    let id := (m.intern name).1
    let m' := (m.intern name).2
    (m.nameOf (.undefined - 1) = none →
      id ≠ .undefined ∧ m.nameOf id = none ∧ (∀ n, m.idOf n ≠ some id) ∧
        ∀ n i, (m.idOf n = some i → m'.idOf n = some i) ∧
          (m.nameOf i = some n → m'.nameOf i = some n)) ∧
      (m.nameOf (.undefined - 1) ≠ none →
        id = .undefined ∧ ∀ n i, i ≠ .undefined → (m.idOf n = some i → m'.idOf n = some i) ∧
          (m.nameOf i = some n → m'.nameOf i = some n)) ∧
      m'.idOf name = some id ∧ m'.nameOf id = some name := by
  intro m
  rw [intern_of_idOf_eq_none hnew]
  intro id m'
  have hpaired : m.Paired := paired_ofChanges changes
  refine ⟨fun hfree => ?_, fun htaken => ?_, ?_, ?_⟩
  · have hid : id ≠ .undefined := fun he => nextId_eq_undefined_iff.1 he hfree
    have hname : m.nameOf id = none := nameOf_nextId hid
    have hnone (n : String) : m.idOf n ≠ some id := fun hn =>
      nomatch hname.symm.trans ((hpaired n id).1 hn)
    refine ⟨hid, hname, hnone, fun n i => ⟨fun hn => ?_, fun hn => ?_⟩⟩
    · have hi : i ≠ id := by
        rintro rfl
        exact hnone n hn
      exact (hpaired.kept_insert hnew hi).1 hn
    · have hi : i ≠ id := by
        rintro rfl
        exact nomatch hname.symm.trans hn
      exact (hpaired.kept_insert hnew hi).2 hn
  · have hid : id = .undefined := nextId_eq_undefined_iff.2 htaken
    exact ⟨hid, fun n i hi => hpaired.kept_insert hnew (fun he : i = id => hi (he.trans hid))⟩
  · exact hpaired.idOf_insert.2 (.inl ⟨rfl, rfl⟩)
  · exact hpaired.nameOf_insert.2 (.inl ⟨rfl, rfl⟩)

/-- A new name beside the two that every table has. -/
theorem intern_beside_reserved :
    let m := ofChanges [.insert "keyword" .unclassified, .insert "undefined" .undefined]
    m.idOf "word" = none ∧ m.nameOf (.undefined - 1) = none ∧ (m.intern "word").1 = 1 ∧
      (∀ n, m.idOf n ≠ some 1) ∧ (m.intern "word").2.idOf "undefined" = some .undefined := by
  have hnew : (ofChanges [.insert "keyword" .unclassified, .insert "undefined" .undefined]).idOf
      "word" = none := by decide +kernel
  obtain ⟨hfree, -⟩ := intern_new_name _ "word" hnew
  obtain ⟨-, -, hnone, hkept⟩ := hfree (by decide +kernel)
  have hfirst : ((ofChanges [.insert "keyword" .unclassified,
      .insert "undefined" .undefined]).intern "word").1 = 1 := by decide +kernel
  exact ⟨hnew, by decide +kernel, hfirst, hfirst ▸ hnone,
    (hkept "undefined" .undefined).1 (by decide +kernel)⟩

/-- Where the number below the reserved one is taken, a new name is given the reserved number, and
the name that had it is lost. -/
theorem intern_overruns :
    let m := ofChanges [.insert "last" (.undefined - 1), .insert "undefined" .undefined]
    m.idOf "word" = none ∧ (m.intern "word").1 = .undefined ∧
      m.idOf "undefined" = some .undefined ∧ (m.intern "word").2.idOf "undefined" = none ∧
      (m.intern "word").2.nameOf .undefined = some "word" := by
  decide +kernel

end Syntagma.TokenClassMap
