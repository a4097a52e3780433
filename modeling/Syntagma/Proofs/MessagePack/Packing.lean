import Syntagma.MessagePack.Packable
import Syntagma.Proofs.Dictionary

/-! Types whose form tells their values apart. A value of such a type is got back from its form, and
the form is nested at most so deep, whatever the value. Only what may be missing takes the form of
nothing. -/

namespace Syntagma.MessagePack

/-- Values are got back from their form, which has a bounded nesting. -/
class Lawful (α : Type) [Packable α] where
  levels : Nat
  height_pack_le (a : α) : (pack a).height ≤ levels
  unpack_pack (room : Nat) (a : α) : unpack? room (pack a) = some a

/-- No value has the form of nothing. -/
class Present (α : Type) [Packable α] : Prop where
  pack_ne_nil (a : α) : pack a ≠ .nil

export Lawful (levels height_pack_le unpack_pack)

instance : Lawful Bool where
  levels := 0
  height_pack_le _ := Nat.le_refl 0
  unpack_pack _ _ := rfl

instance : Lawful Nat where
  levels := 0
  height_pack_le _ := Nat.le_refl 0
  unpack_pack _ _ := rfl

instance : Present Nat := ⟨nofun⟩

instance : Lawful UInt32 where
  levels := 0
  height_pack_le _ := Nat.le_refl 0
  unpack_pack _ n := by
    show (if n.toNat < UInt32.size then some (UInt32.ofNat n.toNat) else none) = some n
    rw [if_pos n.toNat_lt_size, UInt32.ofNat_toNat]

instance : Present UInt32 := ⟨nofun⟩

instance : Lawful String where
  levels := 0
  height_pack_le _ := Nat.le_refl 0
  unpack_pack _ _ := rfl

instance : Present String := ⟨nofun⟩

instance : Lawful Char where
  levels := 0
  height_pack_le _ := Nat.le_refl 0
  unpack_pack _ c := by simp [pack, unpack?]

/-! ### Values that contain others -/

theorem itemsHeight_le {items : List Value} {n : Nat} (h : ∀ v ∈ items, v.height ≤ n) :
    itemsHeight items ≤ n := by
  induction items with
  | nil => exact Nat.zero_le n
  | cons v items ih =>
    simp only [itemsHeight, Nat.max_le]
    exact ⟨h v List.mem_cons_self, ih (fun w hw => h w (List.mem_cons_of_mem v hw))⟩

theorem entriesHeight_le {entries : List (Value × Value)} {n : Nat}
    (h : ∀ e ∈ entries, e.1.height ≤ n ∧ e.2.height ≤ n) : entriesHeight entries ≤ n := by
  induction entries with
  | nil => exact Nat.zero_le n
  | cons e entries ih =>
    simp only [entriesHeight, Nat.max_le]
    exact ⟨h e List.mem_cons_self, ih (fun w hw => h w (List.mem_cons_of_mem e hw))⟩

theorem mapM_map_eq_some {α γ δ : Type} {f : α → γ} {g : γ → Option δ} {k : α → δ} (l : List α)
    (h : ∀ a ∈ l, g (f a) = some (k a)) : (l.map f).mapM g = some (l.map k) := by
  induction l with
  | nil => rfl
  | cons a l ih =>
    rw [List.map_cons, List.mapM_cons, h a List.mem_cons_self,
      ih (fun x hx => h x (List.mem_cons_of_mem a hx))]
    rfl

section Compound

variable {α β : Type} [Packable α] [Packable β]

instance [Lawful α] [Present α] : Lawful (Option α) where
  levels := levels α
  height_pack_le a := by
    cases a with
    | none => exact Nat.zero_le _
    | some a => exact height_pack_le a
  unpack_pack room a := by
    cases a with
    | none => rfl
    | some a =>
      have h : (unpack? room (pack a) : Option α).map some = some (some a) := by
        rw [unpack_pack, Option.map_some]
      show unpack? room (pack a : Value) = some (some a)
      simp only [unpack?]
      split
      next hn => exact absurd hn (Present.pack_ne_nil a)
      next => exact h

instance [Lawful α] : Lawful (List α) where
  levels := levels α + 1
  height_pack_le l := by
    have h : itemsHeight (l.map pack) ≤ levels α := itemsHeight_le (fun v hv => by
      obtain ⟨a, -, rfl⟩ := List.mem_map.1 hv
      exact height_pack_le a)
    exact Nat.succ_le_succ h
  unpack_pack room l := by
    show (l.map pack).mapM (unpack? (room - 1)) = some l
    rw [mapM_map_eq_some (k := id) l (fun a _ => unpack_pack (room - 1) a), List.map_id]

instance [Lawful α] : Lawful (Array α) where
  levels := levels (List α)
  height_pack_le a := height_pack_le a.toList
  unpack_pack room a := by
    show (unpack? room (pack a.toList) : Option (List α)).map _ = some a
    rw [unpack_pack, Option.map_some, Array.toArray_toList]

instance [Lawful α] [Lawful β] : Lawful (α × β) where
  levels := max (levels α) (levels β) + 1
  height_pack_le p := by
    have ha := height_pack_le p.1
    have hb := height_pack_le p.2
    show max (pack p.1).height (max (pack p.2).height 0) + 1 ≤ max (levels α) (levels β) + 1
    omega
  unpack_pack room p := by
    show (do return (← unpack? (room - 1) (pack p.1), ← unpack? (room - 1) (pack p.2)) :
      Option (α × β)) = some p
    rw [unpack_pack, unpack_pack]
    rfl

end Compound

section Dictionaries

variable {κ υ : Type} [Ord κ] [Std.TransOrd κ] [Std.LawfulEqOrd κ] [Packable κ] [Packable υ]

omit [Std.TransOrd κ] [Std.LawfulEqOrd κ] [Packable κ] [Packable υ] in
/-- A key above all others is put behind them. -/
theorem place_above [Std.OrientedOrd κ] {k : κ} {v : υ} {l : List (κ × υ)}
    (h : ∀ e ∈ l, compare e.1 k = .lt) : Dictionary.place k v l = l ++ [(k, v)] := by
  induction l with
  | nil => rfl
  | cons e l ih =>
    have hgt : compare k e.1 = .gt := Std.OrientedCmp.gt_of_lt (h e List.mem_cons_self)
    simp only [Dictionary.place, hgt, List.cons_append]
    rw [ih (fun x hx => h x (List.mem_cons_of_mem e hx))]

omit [Packable κ] [Packable υ] in
theorem entries_insertAll {d : Dictionary κ υ} {l : List (κ × υ)}
    (h : (d.entries ++ l).Pairwise (fun a b => compare a.1 b.1 = .lt)) :
    (d.insertAll l).entries = d.entries ++ l := by
  induction l generalizing d with
  | nil => exact (List.append_nil _).symm
  | cons e l ih =>
    have hplace : (d.insert e.1 e.2).entries = d.entries ++ [e] :=
      place_above (fun x hx =>
        (List.pairwise_append.1 h).2.2 x hx e List.mem_cons_self)
    show ((d.insert e.1 e.2).insertAll l).entries = _
    rw [ih (by rw [hplace, List.append_assoc]; exact h), hplace, List.append_assoc]
    rfl

omit [Packable κ] [Packable υ] in
/-- A dictionary is filled again from its own entries. -/
theorem ofList_entries (d : Dictionary κ υ) : Dictionary.ofList d.entries = d := by
  apply Dictionary.ext_entries
  apply entries_insertAll
  exact d.ascending

instance [Lawful κ] [Lawful υ] : Lawful (Dictionary κ υ) where
  levels := max (levels κ) (levels υ) + 1
  height_pack_le d := by
    have h : entriesHeight (d.entries.map (fun e => (pack e.1, pack e.2))) ≤
        max (levels κ) (levels υ) := entriesHeight_le (fun v hv => by
      obtain ⟨e, -, rfl⟩ := List.mem_map.1 hv
      have hk := height_pack_le e.1
      have hv := height_pack_le e.2
      dsimp only
      omega)
    exact Nat.succ_le_succ h
  unpack_pack room d := by
    show ((d.entries.map (fun e => (pack e.1, pack e.2))).mapM (unpackPair? (room - 1))).map
      Dictionary.ofList = some d
    rw [mapM_map_eq_some (k := id) d.entries (fun e _ => ?_), List.map_id, Option.map_some,
      ofList_entries]
    simp [unpackPair?, unpack_pack]

instance : Present (Dictionary κ υ) := ⟨nofun⟩

end Dictionaries

end Syntagma.MessagePack
