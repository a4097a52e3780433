import Mathlib.Data.List.Forall2
import Syntagma.Dictionary

/-! What a dictionary that is filled from a list holds. Its keys are the keys of the list, and keys
in ascending order are determined by which keys there are. So a dictionary is determined by what can
be looked up in it. -/

namespace Syntagma.Dictionary

variable {κ υ υ' : Type} [Ord κ]

theorem keys_ascending (d : Dictionary κ υ) : d.keys.Pairwise (fun a b => compare a b = .lt) :=
  List.pairwise_map.2 d.ascending

section Values

variable {f : υ → υ'} {d e : Dictionary κ υ}

omit [Ord κ] in
theorem map_values_inj {l m : List (κ × υ)}
    (hf : ∀ p ∈ l, ∀ q ∈ m, f p.2 = f q.2 → p.2 = q.2)
    (h : l.map (fun p => (p.1, f p.2)) = m.map (fun p => (p.1, f p.2))) : l = m := by
  induction l generalizing m with
  | nil => exact (List.map_eq_nil_iff.1 h.symm).symm
  | cons p l ih =>
    cases m with
    | nil => exact absurd h (List.cons_ne_nil _ _)
    | cons q m =>
      rw [List.map_cons, List.map_cons] at h
      obtain ⟨hhead, hrest⟩ := List.cons.inj h
      obtain ⟨hkey, hvalue⟩ := Prod.mk.inj hhead
      rw [Prod.ext hkey (hf p List.mem_cons_self q List.mem_cons_self hvalue), ih ?_ hrest]
      exact fun x hx y hy => hf x (List.mem_cons_of_mem p hx) y (List.mem_cons_of_mem q hy)

/-- Dictionaries are equal when their values have been changed alike and have become equal. -/
theorem mapValues_inj (hf : ∀ x ∈ d.values, ∀ y ∈ e.values, f x = f y → x = y)
    (h : d.mapValues f = e.mapValues f) : d = e :=
  ext_entries (map_values_inj (fun _ hp _ hq => hf _ (List.mem_map_of_mem hp) _
    (List.mem_map_of_mem hq)) (congrArg entries h))

theorem mapValues_of_forall {f : υ → υ} {d : Dictionary κ υ} (h : ∀ x ∈ d.values, f x = x) :
    d.mapValues f = d := by
  apply ext_entries
  refine (List.map_congr_left (fun p hp => ?_)).trans (List.map_id _)
  rw [h p.2 (List.mem_map_of_mem hp)]
  rfl

end Values

section Lookup

variable [DecidableEq κ]

omit [Ord κ] in
theorem isSome_lookup_iff {k : κ} {l : List (κ × υ)} :
    (lookup k l).isSome ↔ k ∈ l.map (·.1) := by
  induction l with
  | nil => simp [lookup]
  | cons e rest ih =>
    obtain ⟨k', v⟩ := e
    simp only [lookup, List.map_cons, List.mem_cons]
    split
    next h => simp [h]
    next h => simp [h, ih]

omit [Ord κ] in
theorem lookup_append (k : κ) (l m : List (κ × υ)) :
    lookup k (l ++ m) = (lookup k l <|> lookup k m) := by
  induction l with
  | nil => rfl
  | cons e l ih =>
    rw [List.cons_append, lookup, lookup, ih]
    split <;> rfl

theorem mem_keys_iff {d : Dictionary κ υ} {k : κ} : k ∈ d.keys ↔ (d.get? k).isSome :=
  isSome_lookup_iff.symm

theorem get?_erase_eq_some_iff {d : Dictionary κ υ} {k k' : κ} {v : υ} :
    (d.erase k).get? k' = some v ↔ k' ≠ k ∧ d.get? k' = some v := by
  rw [get?_erase]
  by_cases h : k' = k <;> simp [h]

end Lookup

section Ordered

variable [Std.TransOrd κ] [Std.LawfulEqOrd κ] [DecidableEq κ]

theorem get?_insert_eq_some_iff {d : Dictionary κ υ} {k k' : κ} {v v' : υ} :
    (d.insert k v).get? k' = some v' ↔ (k' = k ∧ v' = v) ∨ (k' ≠ k ∧ d.get? k' = some v') := by
  rw [get?_insert]
  by_cases h : k' = k <;> simp [h, eq_comm]

theorem mem_keys_insert {d : Dictionary κ υ} {k k' : κ} {v : υ} :
    k' ∈ (d.insert k v).keys ↔ k' = k ∨ k' ∈ d.keys := by
  rw [mem_keys_iff, mem_keys_iff, get?_insert]
  split
  next h => simp [h]
  next h => simp [h]

theorem contains_insert {d : Dictionary κ υ} {k k' : κ} {v : υ} :
    (d.insert k v).contains k' ↔ k' = k ∨ d.contains k' := by
  rw [contains, contains, ← mem_keys_iff, ← mem_keys_iff, mem_keys_insert]

theorem mem_keys_insertAll {d : Dictionary κ υ} {l : List (κ × υ)} {k : κ} :
    k ∈ (d.insertAll l).keys ↔ k ∈ d.keys ∨ k ∈ l.map (·.1) := by
  induction l generalizing d with
  | nil => simp [insertAll]
  | cons e rest ih =>
    have h : d.insertAll (e :: rest) = (d.insert e.1 e.2).insertAll rest := rfl
    rw [h, ih, mem_keys_insert, List.map_cons, List.mem_cons]
    rw [or_comm (a := k = e.1), or_assoc]

theorem mem_keys_ofList {l : List (κ × υ)} {k : κ} :
    k ∈ (ofList l).keys ↔ k ∈ l.map (·.1) := by
  rw [ofList, mem_keys_insertAll]
  simp [empty, keys]

/-- A key whose pairs all have one value is stored with this value. -/
theorem get?_insertAll_of_forall {d : Dictionary κ υ} {l : List (κ × υ)} {k : κ} {v : υ}
    (hd : d.get? k = some v ∨ k ∈ l.map (·.1)) (hl : ∀ e ∈ l, e.1 = k → e.2 = v) :
    (d.insertAll l).get? k = some v := by
  induction l generalizing d with
  | nil => simpa [insertAll] using hd
  | cons e rest ih =>
    refine ih ?_ (fun e' he' => hl e' (List.mem_cons_of_mem _ he'))
    rw [get?_insert]
    by_cases he : k = e.1
    · rw [if_pos he, hl e List.mem_cons_self he.symm]
      exact .inl rfl
    · rw [if_neg he]
      refine hd.imp_right (fun h => ?_)
      rw [List.map_cons, List.mem_cons] at h
      exact h.resolve_left he

theorem get?_ofList_of_forall {l : List (κ × υ)} {k : κ} {v : υ} (hk : k ∈ l.map (·.1))
    (hl : ∀ e ∈ l, e.1 = k → e.2 = v) : (ofList l).get? k = some v :=
  get?_insertAll_of_forall (.inr hk) hl

/-- A value that was stored from a list was in the list with its key. -/
theorem mem_of_get?_insertAll {d : Dictionary κ υ} {l : List (κ × υ)} {k : κ} {v : υ}
    (h : (d.insertAll l).get? k = some v) : (k, v) ∈ l ∨ d.get? k = some v := by
  induction l generalizing d with
  | nil => exact .inr h
  | cons e rest ih =>
    rcases ih h with hmem | hget
    · exact .inl (List.mem_cons_of_mem e hmem)
    rw [get?_insert] at hget
    split at hget
    next he =>
      cases hget
      exact .inl (he ▸ List.mem_cons_self)
    next => exact .inr hget

theorem mem_of_get?_ofList {l : List (κ × υ)} {k : κ} {v : υ} (h : (ofList l).get? k = some v) :
    (k, v) ∈ l :=
  (mem_of_get?_insertAll h).resolve_right (fun hn => nomatch hn)

omit [Std.TransOrd κ] in
/-- The pairs of a dictionary are its lookups. -/
theorem mem_entries_iff {d : Dictionary κ υ} {k : κ} {v : υ} :
    (k, v) ∈ d.entries ↔ d.get? k = some v := by
  obtain ⟨entries, hasc⟩ := d
  show (k, v) ∈ entries ↔ lookup k entries = some v
  induction entries with
  | nil => simp [lookup]
  | cons e rest ih =>
    obtain ⟨k', v'⟩ := e
    obtain ⟨hfirst, hrest⟩ := List.pairwise_cons.1 hasc
    rw [List.mem_cons, Prod.mk.injEq, ih hrest, lookup]
    by_cases h : k = k'
    · subst h
      have hnone : lookup k rest ≠ some v := fun hl => by
        have hlt := hfirst (k, v) ((ih hrest).2 hl)
        simp at hlt
      simp [hnone, eq_comm]
    · simp [h]

end Ordered

/-- Lists in ascending order are equal when they have the same elements. -/
theorem eq_of_ascending [Std.TransOrd κ] [Std.LawfulEqOrd κ] {l m : List κ}
    (hl : l.Pairwise (fun a b => compare a b = .lt))
    (hm : m.Pairwise (fun a b => compare a b = .lt)) (h : ∀ k, k ∈ l ↔ k ∈ m) : l = m := by
  induction l generalizing m with
  | nil =>
    cases m with
    | nil => rfl
    | cons b m => exact absurd ((h b).2 List.mem_cons_self) List.not_mem_nil
  | cons a l ih =>
    cases m with
    | nil => exact absurd ((h a).1 List.mem_cons_self) List.not_mem_nil
    | cons b m =>
      obtain ⟨ha, hl'⟩ := List.pairwise_cons.1 hl
      obtain ⟨hb, hm'⟩ := List.pairwise_cons.1 hm
      have irrefl : ∀ k : κ, compare k k ≠ .lt := fun k => by simp
      -- the first elements agree: each is in the other list, and neither can be behind the other
      have hab : a = b := by
        rcases List.mem_cons.1 ((h a).1 List.mem_cons_self) with hab | hab
        · exact hab
        · rcases List.mem_cons.1 ((h b).2 List.mem_cons_self) with hba | hba
          · exact hba.symm
          · exact absurd (Std.TransCmp.lt_trans (ha b hba) (hb a hab)) (irrefl a)
      subst hab
      congr 1
      refine ih hl' hm' (fun k => ⟨fun hk => ?_, fun hk => ?_⟩)
      · refine (List.mem_cons.1 ((h k).1 (List.mem_cons_of_mem _ hk))).resolve_left ?_
        rintro rfl
        exact irrefl _ (ha _ hk)
      · refine (List.mem_cons.1 ((h k).2 (List.mem_cons_of_mem _ hk))).resolve_left ?_
        rintro rfl
        exact irrefl _ (hb _ hk)

/-! ### Dictionaries with the same lookups -/

section Lookups

variable [Std.TransOrd κ] [Std.LawfulEqOrd κ] [DecidableEq κ]

theorem keys_eq_of_isSome {d : Dictionary κ υ} {e : Dictionary κ υ'}
    (h : ∀ k, (d.get? k).isSome = (e.get? k).isSome) : d.keys = e.keys :=
  eq_of_ascending d.keys_ascending e.keys_ascending
    (fun k => by rw [mem_keys_iff, mem_keys_iff, h])

omit [Std.TransOrd κ] in
theorem values_eq_filterMap (d : Dictionary κ υ) : d.values = d.keys.filterMap d.get? := by
  rw [keys, List.filterMap_map, values, ← List.filterMap_eq_map]
  exact List.filterMap_congr (fun e he => (mem_entries_iff.1 he).symm)

/-- Values that correspond key by key correspond one after the other. -/
theorem forall₂_values {R : υ → υ' → Prop} {d : Dictionary κ υ} {e : Dictionary κ υ'}
    (h : ∀ k, Option.Rel R (d.get? k) (e.get? k)) : List.Forall₂ R d.values e.values := by
  have hkeys : d.keys = e.keys := keys_eq_of_isSome (fun k => by
    have hk := h k
    generalize d.get? k = o, e.get? k = o' at hk
    cases hk <;> rfl)
  rw [values_eq_filterMap, values_eq_filterMap, hkeys]
  exact List.rel_filterMap (R := (· = ·)) (fun k _ he => he ▸ h k) (List.forall₂_refl e.keys)

theorem ext_get? {d e : Dictionary κ υ} (h : ∀ k, d.get? k = e.get? k) : d = e := by
  have hkeys : d.keys = e.keys := keys_eq_of_isSome (fun k => by rw [h])
  have hvalues : d.values = e.values := by
    rw [values_eq_filterMap, values_eq_filterMap, hkeys, funext h]
  have hzip (d : Dictionary κ υ) : d.keys.zip d.values = d.entries := by
    rw [keys, values, List.zip_map', List.map_id']
  exact ext_entries (by rw [← hzip d, ← hzip e, hkeys, hvalues])

end Lookups

end Syntagma.Dictionary
