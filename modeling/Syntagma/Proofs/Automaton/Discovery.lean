import Mathlib.Data.List.Perm.Subperm
import Syntagma.Automaton.Discovery
import Syntagma.Proofs.Distinct

/-! What breadth-first discovery finds: each number once, the first one in front, and with every
number all that follow it. The numbers come in the order in which they are met when those found so
far are looked at in turn. Numbers that stand in this order already are found as they stand. -/

namespace Syntagma

namespace Discovery

theorem meet_cons (order : Array Nat) (id : Nat) (found : List Nat) :
    meet order (id :: found) = meet (if order.contains id then order else order.push id) found :=
  rfl

theorem prefix_meet (order : Array Nat) (found : List Nat) :
    order.toList <+: (meet order found).toList := by
  induction found generalizing order with
  | nil => exact List.prefix_refl _
  | cons id rest ih =>
    rw [meet_cons]
    refine List.IsPrefix.trans ?_ (ih _)
    split
    · exact List.prefix_refl _
    · simp

theorem mem_meet {order : Array Nat} {found : List Nat} {id : Nat} :
    id ∈ meet order found ↔ id ∈ order ∨ id ∈ found := by
  induction found generalizing order with
  | nil => simp [meet]
  | cons x rest ih =>
    rw [meet_cons, ih, List.mem_cons]
    split
    next h =>
      have hx : x ∈ order := by simpa using h
      grind
    next => grind

theorem nodup_meet {order : Array Nat} {found : List Nat} (h : order.toList.Nodup) :
    (meet order found).toList.Nodup := by
  induction found generalizing order with
  | nil => exact h
  | cons x rest ih =>
    rw [meet_cons]
    refine ih ?_
    split
    · exact h
    next hx =>
      rw [Array.toList_push, List.nodup_append]
      refine ⟨h, by simp, ?_⟩
      rintro a ha b hb rfl
      simp_all

variable {next : Nat → List Nat}

theorem prefix_run (steps i : Nat) (order : Array Nat) :
    order.toList <+: (run next steps i order).toList := by
  induction steps generalizing i order with
  | zero => exact List.prefix_refl _
  | succ steps ih =>
    unfold run
    split
    · exact (prefix_meet _ _).trans (ih _ _)
    · exact List.prefix_refl _

theorem nodup_run {steps i : Nat} {order : Array Nat} (h : order.toList.Nodup) :
    (run next steps i order).toList.Nodup := by
  induction steps generalizing i order with
  | zero => exact h
  | succ steps ih =>
    unfold run
    split
    · exact ih (nodup_meet h)
    · exact h

/-- What holds of the numbers met so far and passes on to those that follow holds of all. -/
theorem forall_mem_run {good : Nat → Prop} (hn : ∀ id, good id → ∀ x ∈ next id, good x)
    {steps i : Nat} {order : Array Nat} (h : ∀ id ∈ order, good id) :
    ∀ id ∈ run next steps i order, good id := by
  induction steps generalizing i order with
  | zero => exact h
  | succ steps ih =>
    unfold run
    split
    next id hid =>
      refine ih (fun x hx => ?_)
      rcases mem_meet.1 hx with hx | hx
      · exact h x hx
      · exact hn id (h id (Array.mem_of_getElem? hid)) x hx
    · exact h

/-- The numbers before place `i` are done: all that follow them were met. -/
def Done (next : Nat → List Nat) (i : Nat) (order : Array Nat) : Prop :=
  ∀ j < i, ∀ id, order[j]? = some id → ∀ x ∈ next id, x ∈ order

theorem Done.meet {i : Nat} {order : Array Nat} {id : Nat} (h : Done next i order)
    (hid : order[i]? = some id) : Done next (i + 1) (Discovery.meet order (next id)) := by
  intro j hj x hx y hy
  have hsize : j < order.size := by
    have := (Array.getElem?_eq_some_iff.1 hid).1
    omega
  -- place `j` was there before the new numbers were added
  have hx' : order[j]? = some x := by
    obtain ⟨added, he⟩ := prefix_meet order (next id)
    rw [← Array.getElem?_toList, ← he, List.getElem?_append_left (by simpa using hsize)] at hx
    simpa using hx
  rcases Nat.lt_succ_iff_lt_or_eq.1 hj with hj | rfl
  · exact mem_meet.2 (.inl (h j hj x hx' y hy))
  · rw [hid, Option.some.injEq] at hx'
    exact mem_meet.2 (.inr (hx' ▸ hy))

theorem Done.closed {i : Nat} {order : Array Nat} (h : Done next i order) (hi : order.size ≤ i) :
    ∀ id ∈ order, ∀ x ∈ next id, x ∈ order := by
  intro id hid
  obtain ⟨j, hj, rfl⟩ := Array.mem_iff_getElem.1 hid
  exact h j (by omega) _ (Array.getElem?_eq_getElem hj)

theorem closed_run {steps i : Nat} {order : Array Nat} (h : Done next i order)
    (hs : (run next steps i order).size < i + steps) :
    ∀ id ∈ run next steps i order, ∀ x ∈ next id, x ∈ run next steps i order := by
  induction steps generalizing i order with
  | zero => exact h.closed (Nat.le_of_lt hs)
  | succ steps ih =>
    unfold run at hs ⊢
    split at hs
    next id hid => exact ih (h.meet hid) (by omega)
    next hid => exact h.closed (Array.getElem?_eq_none_iff.1 hid)

/-! ### The order of discovery -/

theorem toList_meet {order : Array Nat} (found : List Nat) (h : order.toList.Nodup) :
    (meet order found).toList = (order.toList ++ found).eraseDups := by
  induction found generalizing order with
  | nil => simpa [meet] using (Distinct.eraseDups_of_nodup h).symm
  | cons id found ih =>
    rw [meet_cons]
    by_cases hid : order.contains id
    · have hmem : id ∈ order.toList := by simpa using hid
      rw [if_pos hid, ih h, List.eraseDups_append, List.eraseDups_append, List.removeAll,
        List.removeAll, List.filter_cons_of_neg (by simpa using hmem)]
    · have hmem : id ∉ order.toList := by simpa using hid
      have hpush : (order.push id).toList.Nodup := by
        rw [Array.toList_push]
        exact List.nodup_append.2 ⟨h, (by simp : [id].Nodup), fun a ha b hb he =>
          hmem (List.mem_singleton.1 hb ▸ he ▸ ha)⟩
      rw [if_neg hid, ih hpush]
      simp

variable {next' : Nat → List Nat} {first : Nat}

/-- What has been met when the numbers before place `i` have been looked at: the first one and then
all that follows these numbers, each at its first occurrence. -/
def Met (next : Nat → List Nat) (first i : Nat) (order : Array Nat) : Prop :=
  order.toList = (first :: (order.toList.take i).flatMap next).eraseDups

theorem Met.meet {i id : Nat} {order : Array Nat} (h : Met next first i order)
    (hid : order[i]? = some id) : Met next first (i + 1) (Discovery.meet order (next id)) := by
  have hnodup : order.toList.Nodup := h ▸ Distinct.nodup_eraseDups _
  have hlt : i < order.toList.length := by simpa using (Array.getElem?_eq_some_iff.1 hid).1
  have htake : ((Discovery.meet order (next id)).toList.take (i + 1)) = order.toList.take i ++ [id] := by
    obtain ⟨added, he⟩ := prefix_meet order (next id)
    rw [← he, List.take_append_of_le_length (by omega), List.take_add_one]
    simp [hid]
  rw [Met, htake, toList_meet _ hnodup, h, Distinct.eraseDups_eraseDups_append, ← h]
  simp

theorem exists_met_run {steps i j : Nat} {order : Array Nat} (h : Met next first i order)
    (hij : i ≤ j) (hj : j < (run next steps i order).size)
    (hsteps : (run next steps i order).size ≤ i + steps) :
    ∃ met, j < met ∧ (first :: ((run next steps i order).toList.take j).flatMap next).eraseDups =
      (run next steps i order).toList.take met := by
  induction steps generalizing i order with
  | zero =>
    rw [run] at hj hsteps
    omega
  | succ steps ih =>
    rw [run] at hj hsteps ⊢
    cases hid : order[i]? with
    | none =>
      rw [hid] at hj
      have := Array.getElem?_eq_none_iff.1 hid
      simp only at hj
      omega
    | some id =>
      simp only [hid] at hj hsteps ⊢
      rcases Nat.lt_or_eq_of_le hij with hlt | rfl
      · exact ih (h.meet hid) hlt hj (by omega)
      · -- the numbers met by now stand in front, and place `i` is among them
        obtain ⟨added, he⟩ := (prefix_meet order (next id)).trans (@prefix_run next steps (i + 1) _)
        have hi : i < order.toList.length := by simpa using (Array.getElem?_eq_some_iff.1 hid).1
        refine ⟨order.toList.length, hi, ?_⟩
        rw [← he, List.take_append_of_le_length (Nat.le_of_lt hi), List.take_left, ← h]

end Discovery

/-- At its place stands the number itself. -/
theorem getElem?_idxOf? {order : Array Nat} {id : Nat} (h : id ∈ order) :
    order[(order.idxOf? id).getD 0]? = some id := by
  obtain ⟨i, hi⟩ := Option.isSome_iff_exists.1 (Array.isSome_idxOf?.2 h)
  obtain ⟨k, hk, rfl⟩ := Option.map_eq_some_iff.1 hi
  rw [hi, Option.getD_some]
  exact Array.getElem?_eq_some_iff.2 ⟨k.isLt, (Array.finIdxOf?_eq_some_iff.1 hk).1⟩

open Discovery

variable {next next' : Nat → List Nat} {bound first : Nat}

theorem nodup_discover : (discover next bound first).toList.Nodup :=
  nodup_run (by simp)

theorem getElem?_discover_zero : (discover next bound first)[0]? = some first := by
  obtain ⟨added, he⟩ := @prefix_run next (bound + 1) 0 #[first]
  rw [discover, ← Array.getElem?_toList, ← he]
  rfl

theorem forall_mem_discover {good : Nat → Prop} (hf : good first)
    (hn : ∀ id, good id → ∀ x ∈ next id, good x) : ∀ id ∈ discover next bound first, good id :=
  forall_mem_run hn (by simpa using hf)

theorem size_discover_le {n : Nat} (h : ∀ id ∈ discover next bound first, id < n) :
    (discover next bound first).size ≤ n := by
  have hsub : (discover next bound first).toList.Subperm (List.range n) :=
    List.subperm_of_subset nodup_discover
      (fun id hid => List.mem_range.2 (h id (by simpa using hid)))
  simpa using hsub.length_le

/-- If all numbers found are below the bound, whatever follows one of them is found too. -/
theorem closed_discover (h : ∀ id ∈ discover next bound first, id < bound) :
    ∀ id ∈ discover next bound first, ∀ x ∈ next id, x ∈ discover next bound first := by
  have hsize := size_discover_le h
  exact closed_run (fun j hj => absurd hj (Nat.not_lt_zero j))
    (by rw [discover] at hsize; omega)

/-- When the numbers before some place have been looked at, a first part of all has been met, and the
number at this place with it. -/
theorem exists_met_discover (h : ∀ id ∈ discover next bound first, id < bound) {i : Nat}
    (hi : i < (discover next bound first).size) : ∃ met, i < met ∧
      (first :: ((discover next bound first).toList.take i).flatMap next).eraseDups =
        (discover next bound first).toList.take met := by
  have hle := size_discover_le h
  rw [discover] at hi hle ⊢
  exact exists_met_run (by simp [Met, List.eraseDups_cons]) (Nat.zero_le i) hi (by omega)

/-- The place of a number in the order of discovery. -/
def place (order : Array Nat) (id : Nat) : Nat := (order.idxOf? id).getD 0

section Places

variable {order : Array Nat} {id i : Nat}

theorem getElem?_place (h : id ∈ order) : order[place order id]? = some id := getElem?_idxOf? h

theorem place_lt (h : id ∈ order) : place order id < order.size :=
  (Array.getElem?_eq_some_iff.1 (getElem?_place h)).1

theorem place_eq (hn : order.toList.Nodup) (h : order[i]? = some id) : place order id = i := by
  have hid := Array.mem_of_getElem? h
  apply (List.getElem?_inj (place_lt hid) hn).1
  simp [getElem?_place hid, h]

theorem place_inj {x y : Nat} (hx : x ∈ order) (hy : y ∈ order) (h : place order x = place order y) :
    x = y := by
  have hplace := getElem?_place hx
  rw [h, getElem?_place hy] at hplace
  exact (Option.some.inj hplace).symm

theorem map_place (hn : order.toList.Nodup) :
    order.toList.map (place order) = List.range order.size := by
  apply List.ext_getElem?
  intro i
  rw [List.getElem?_map, Array.getElem?_toList]
  cases h : order[i]? with
  | none => simpa using Array.getElem?_eq_none_iff.1 h
  | some id =>
    have hi := (Array.getElem?_eq_some_iff.1 h).1
    simp [place_eq hn h, List.getElem?_range hi]

end Places

/-! ### Numbers in the order of discovery -/

/-- The numbers below `size` stand in the order of discovery from the first of them. When those
before some place have been looked at, the numbers met are those below another place behind it. -/
def BreadthFirst (next : Nat → List Nat) (size : Nat) : Prop :=
  ∀ i < size, ∃ met, i < met ∧ (0 :: (List.range i).flatMap next).eraseDups = List.range met

/-- Numbers that are replaced by their places stand in the order of discovery. -/
theorem breadthFirst_places (h : ∀ id ∈ discover next bound first, id < bound)
    (hnext : ∀ id ∈ discover next bound first,
      next' (place (discover next bound first) id) =
        (next id).map (place (discover next bound first))) :
    BreadthFirst next' (discover next bound first).size := by
  intro i hi
  obtain ⟨met, him, hmet⟩ := exists_met_discover h hi
  have hclosed := closed_discover h
  have hnodup : (discover next bound first).toList.Nodup := nodup_discover
  have hzero : place (discover next bound first) first = 0 := place_eq hnodup getElem?_discover_zero
  have hfirst : first ∈ discover next bound first := Array.mem_of_getElem? getElem?_discover_zero
  generalize discover next bound first = order at *
  have htake (n : Nat) : (order.toList.take n).map (place order) = List.range (min n order.size) := by
    rw [List.map_take, map_place hnodup, List.take_range]
  have hrange : List.range i = (order.toList.take i).map (place order) := by
    rw [htake, Nat.min_eq_left (Nat.le_of_lt hi)]
  have hlook : (List.range i).flatMap next' =
      ((order.toList.take i).flatMap next).map (place order) := by
    rw [hrange, List.flatMap_map, List.map_flatMap]
    refine List.flatMap_congr (fun id hid => hnext id ?_)
    simpa using List.mem_of_mem_take hid
  have hthere : ∀ id ∈ first :: (order.toList.take i).flatMap next, id ∈ order := by
    intro id hid
    rcases List.mem_cons.1 hid with rfl | hid
    · exact hfirst
    · obtain ⟨x, hx, hid⟩ := List.mem_flatMap.1 hid
      exact hclosed x (by simpa using List.mem_of_mem_take hx) id hid
  refine ⟨min met order.size, by omega, ?_⟩
  rw [← htake met, ← hmet, ← Distinct.eraseDups_map, List.map_cons, hzero, hlook]
  exact fun x hx y hy => place_inj (hthere x hx) (hthere y hy)

/-- Numbers in the order of discovery are discovered in their order. -/
theorem BreadthFirst.discover_eq {size : Nat} (h : BreadthFirst next size) (hpos : 0 < size)
    (hin : ∀ i < size, ∀ x ∈ next i, x < size) : discover next size 0 = Array.range size := by
  have hlt : ∀ id ∈ discover next size 0, id < size := forall_mem_discover hpos hin
  have hclosed := closed_discover hlt
  have hle := size_discover_le hlt
  have hmet {i : Nat} := exists_met_discover hlt (i := i)
  have hfirst : 0 ∈ discover next size 0 := Array.mem_of_getElem? getElem?_discover_zero
  generalize discover next size 0 = order at *
  have htake : ∀ i ≤ order.size, order.toList.take i = List.range i := by
    intro i hi
    induction i with
    | zero => rfl
    | succ i ih =>
      obtain ⟨met, him, he⟩ := hmet hi
      obtain ⟨met', him', he'⟩ := h i (by omega)
      rw [ih (by omega), he'] at he
      have hplace : (order.toList.take met)[i]? = some i := he ▸ List.getElem?_range him'
      rw [List.getElem?_take_of_lt him] at hplace
      rw [List.take_add_one, ih (by omega), hplace, List.range_succ]
      rfl
  have horder : order.toList = List.range order.size :=
    (List.take_of_length_le (by simp)).symm.trans (htake order.size (Nat.le_refl _))
  -- were a number missing, then the next one would be met by those that are there
  have hsize : order.size = size := by
    refine Nat.le_antisymm hle (Nat.le_of_not_lt (fun hlt => ?_))
    have hmem (id : Nat) : id ∈ order ↔ id < order.size := by
      rw [← Array.mem_toList_iff, horder, List.mem_range]
    obtain ⟨met, hsm, he⟩ := h order.size hlt
    have hnew : order.size ∈ (0 :: (List.range order.size).flatMap next).eraseDups :=
      he ▸ List.mem_range.2 hsm
    rcases List.mem_cons.1 (List.mem_eraseDups.1 hnew) with hnew | hnew
    · exact absurd ((hmem 0).1 hfirst) (by omega)
    · obtain ⟨id, hid, hnew⟩ := List.mem_flatMap.1 hnew
      have hthere := hclosed id ((hmem id).2 (List.mem_range.1 hid)) _ hnew
      exact Nat.lt_irrefl _ ((hmem _).1 hthere)
  rw [← Array.toList_inj, horder, hsize]
  simp

end Syntagma
