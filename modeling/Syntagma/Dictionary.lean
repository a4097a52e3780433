/-! Finite maps kept as lists of pairs in strictly ascending key order. Two dictionaries with
the same lookups are the same list, so equality of dictionaries is equality of maps, and every
listing is in key order. -/

namespace Syntagma

/-- A finite map whose entries stand in strictly ascending order of their keys. -/
structure Dictionary (κ υ : Type) [Ord κ] where
  entries : List (κ × υ)
  ascending : entries.Pairwise (fun a b => compare a.1 b.1 = .lt)

namespace Dictionary

variable {κ υ ω : Type} [Ord κ]

@[ext] theorem ext_entries {d e : Dictionary κ υ} (h : d.entries = e.entries) : d = e := by
  cases d; cases e; cases h; rfl

instance [DecidableEq κ] [DecidableEq υ] : DecidableEq (Dictionary κ υ) := fun d e =>
  decidable_of_iff (d.entries = e.entries) ⟨ext_entries, fun h => h ▸ rfl⟩

def empty : Dictionary κ υ := ⟨[], .nil⟩

instance : Inhabited (Dictionary κ υ) := ⟨empty⟩

def isEmpty (d : Dictionary κ υ) : Bool := d.entries.isEmpty

def size (d : Dictionary κ υ) : Nat := d.entries.length

def keys (d : Dictionary κ υ) : List κ := d.entries.map (·.1)

def values (d : Dictionary κ υ) : List υ := d.entries.map (·.2)

section Lookup

variable [DecidableEq κ]

/-- The value stored under `k` in a list of pairs, at its first occurrence. -/
def lookup (k : κ) : List (κ × υ) → Option υ
  | [] => none
  | (k', v) :: rest => if k = k' then some v else lookup k rest

def get? (d : Dictionary κ υ) (k : κ) : Option υ := lookup k d.entries

def contains (d : Dictionary κ υ) (k : κ) : Bool := (d.get? k).isSome

@[simp] theorem get?_empty (k : κ) : (empty : Dictionary κ υ).get? k = none := rfl

end Lookup

/-- Puts a pair at its place, over the pair with the same key if there is one. -/
def place (k : κ) (v : υ) : List (κ × υ) → List (κ × υ)
  | [] => [(k, v)]
  | (k', v') :: rest =>
    match compare k k' with
    | .lt => (k, v) :: (k', v') :: rest
    | .eq => (k, v) :: rest
    | .gt => (k', v') :: place k v rest

theorem mem_place {k : κ} {v : υ} {l : List (κ × υ)} {e : κ × υ} (h : e ∈ place k v l) :
    e = (k, v) ∨ e ∈ l := by
  induction l with
  | nil => simpa [place] using h
  | cons p rest ih =>
    obtain ⟨k', v'⟩ := p
    simp only [place] at h
    split at h
    · simpa using h
    · rcases List.mem_cons.1 h with h | h
      · exact .inl h
      · exact .inr (List.mem_cons_of_mem _ h)
    · rcases List.mem_cons.1 h with h | h
      · exact .inr (h ▸ List.mem_cons_self)
      · exact (ih h).imp id (List.mem_cons_of_mem _)

section Ordered

variable [Std.TransOrd κ] [Std.LawfulEqOrd κ]

theorem place_ascending (k : κ) (v : υ) {l : List (κ × υ)}
    (h : l.Pairwise (fun a b => compare a.1 b.1 = .lt)) :
    (place k v l).Pairwise (fun a b => compare a.1 b.1 = .lt) := by
  induction l with
  | nil => simp [place]
  | cons p rest ih =>
    obtain ⟨k', v'⟩ := p
    obtain ⟨hp, hr⟩ := List.pairwise_cons.1 h
    simp only [place]
    split
    next hk =>
      refine List.pairwise_cons.2 ⟨fun e he => ?_, h⟩
      rcases List.mem_cons.1 he with rfl | he
      · exact hk
      · exact Std.TransCmp.lt_trans hk (hp e he)
    next hk =>
      refine List.pairwise_cons.2 ⟨fun e he => ?_, hr⟩
      rw [Std.LawfulEqOrd.eq_of_compare hk]
      exact hp e he
    next hk =>
      refine List.pairwise_cons.2 ⟨fun e he => ?_, ih hr⟩
      rcases mem_place he with rfl | he
      · exact Std.OrientedCmp.lt_of_gt hk
      · exact hp e he

def insert (d : Dictionary κ υ) (k : κ) (v : υ) : Dictionary κ υ :=
  ⟨place k v d.entries, place_ascending k v d.ascending⟩

/-- Inserts the pairs in turn, so the last of several pairs with one key stays. -/
def insertAll (d : Dictionary κ υ) (l : List (κ × υ)) : Dictionary κ υ :=
  l.foldl (fun d e => d.insert e.1 e.2) d

def ofList (l : List (κ × υ)) : Dictionary κ υ := empty.insertAll l

variable [DecidableEq κ]

omit [Std.TransOrd κ] in
theorem lookup_place (k k' : κ) (v : υ) (l : List (κ × υ)) :
    lookup k' (place k v l) = if k' = k then some v else lookup k' l := by
  induction l with
  | nil => simp [place, lookup]
  | cons p rest ih =>
    obtain ⟨k'', v''⟩ := p
    simp only [place]
    split
    next => simp [lookup]
    next hk =>
      have := Std.LawfulEqOrd.eq_of_compare hk
      subst this
      simp only [lookup]
      split <;> rfl
    next hk =>
      have : k ≠ k'' := by
        rintro rfl
        simp at hk
      simp only [lookup, ih]
      by_cases h : k' = k'' <;> simp_all [eq_comm]

theorem get?_insert (d : Dictionary κ υ) (k k' : κ) (v : υ) :
    (d.insert k v).get? k' = if k' = k then some v else d.get? k' :=
  lookup_place k k' v d.entries

end Ordered

/-- Keeps the entries whose pair passes the test. -/
def filter (d : Dictionary κ υ) (p : κ × υ → Bool) : Dictionary κ υ :=
  ⟨d.entries.filter p, d.ascending.filter p⟩

/-- Changes every value and keeps every key. -/
def mapValues (d : Dictionary κ υ) (f : υ → ω) : Dictionary κ ω :=
  ⟨d.entries.map (fun e => (e.1, f e.2)),
    List.pairwise_map.2 (d.ascending.imp (fun h => h))⟩

section Erasure

variable [DecidableEq κ]

omit [Ord κ] in
theorem lookup_map (f : υ → ω) (k : κ) (l : List (κ × υ)) :
    lookup k (l.map (fun e => (e.1, f e.2))) = (lookup k l).map f := by
  induction l with
  | nil => rfl
  | cons p rest ih =>
    simp only [List.map_cons, lookup, ih]
    split <;> rfl

theorem get?_mapValues (d : Dictionary κ υ) (f : υ → ω) (k : κ) :
    (d.mapValues f).get? k = (d.get? k).map f :=
  lookup_map f k d.entries

def erase (d : Dictionary κ υ) (k : κ) : Dictionary κ υ := d.filter (fun e => e.1 != k)

omit [Ord κ] in
theorem lookup_filter_ne (k k' : κ) (l : List (κ × υ)) :
    lookup k' (l.filter (fun e => e.1 != k)) = if k' = k then none else lookup k' l := by
  induction l with
  | nil => simp [lookup]
  | cons p rest ih =>
    obtain ⟨k'', v''⟩ := p
    by_cases h : k'' = k
    · subst h
      simp only [List.filter_cons, bne_self_eq_false, Bool.false_eq_true, ↓reduceIte, ih, lookup]
      split <;> simp_all
    · simp only [List.filter_cons, bne_iff_ne, ne_eq, h, not_false_eq_true, ↓reduceIte, lookup, ih]
      by_cases h' : k' = k'' <;> simp_all

theorem get?_erase (d : Dictionary κ υ) (k k' : κ) :
    (d.erase k).get? k' = if k' = k then none else d.get? k' :=
  lookup_filter_ne k k' d.entries

end Erasure

end Dictionary

end Syntagma
