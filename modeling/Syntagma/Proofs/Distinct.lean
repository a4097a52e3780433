import Mathlib.Data.List.Forall2

/-! Lists of which each element is kept at its first occurrence only. -/

namespace Syntagma.Distinct

variable {α β : Type} [DecidableEq α] [DecidableEq β]

theorem nodup_eraseDups (l : List α) : l.eraseDups.Nodup := by
  induction hn : l.length using Nat.strongRecOn generalizing l with
  | ind n ih =>
    cases l with
    | nil => simp
    | cons a l =>
      have hlen : (l.filter (fun b => !b == a)).length < n := by
        have := List.length_filter_le (fun b => !b == a) l
        simp at hn
        omega
      rw [List.eraseDups_cons, List.nodup_cons]
      refine ⟨?_, ih _ hlen _ rfl⟩
      rw [List.mem_eraseDups]
      simp

theorem eraseDups_of_nodup {l : List α} (h : l.Nodup) : l.eraseDups = l := by
  induction l with
  | nil => rfl
  | cons a l ih =>
    obtain ⟨ha, hl⟩ := List.nodup_cons.1 h
    have hother : l.filter (fun b => !b == a) = l := by
      apply List.filter_eq_self.2
      intro b hb
      have hne : b ≠ a := fun he => ha (he ▸ hb)
      simpa using hne
    rw [List.eraseDups_cons, hother, ih hl]

theorem eraseDups_eraseDups_append (l m : List α) :
    (l.eraseDups ++ m).eraseDups = (l ++ m).eraseDups := by
  have hrest : m.removeAll l.eraseDups = m.removeAll l := by simp [List.removeAll]
  rw [List.eraseDups_append, List.eraseDups_append, hrest, eraseDups_of_nodup (nodup_eraseDups l)]

theorem eraseDups_concat (l : List α) (a : α) :
    (l ++ [a]).eraseDups = if a ∈ l then l.eraseDups else l.eraseDups ++ [a] := by
  rw [List.eraseDups_append]
  by_cases h : a ∈ l <;> simp [List.removeAll, List.eraseDups_cons, h]

theorem eraseDups_map {f : α → β} {l : List α} (h : ∀ x ∈ l, ∀ y ∈ l, f x = f y → x = y) :
    (l.map f).eraseDups = l.eraseDups.map f := by
  induction hn : l.length using Nat.strongRecOn generalizing l with
  | ind n ih =>
    cases l with
    | nil => simp
    | cons a l =>
      have hlen : (l.filter (fun b => !b == a)).length < n := by
        have := List.length_filter_le (fun b => !b == a) l
        simp at hn
        omega
      have hother : (l.map f).filter (fun b => !b == f a) = (l.filter (fun b => !b == a)).map f := by
        rw [List.filter_map]
        congr 1
        apply List.filter_congr
        intro b hb
        have hsame : (f b == f a) = (b == a) := by
          rw [Bool.eq_iff_iff, beq_iff_eq, beq_iff_eq]
          exact ⟨h b (List.mem_cons_of_mem a hb) a List.mem_cons_self, fun he => he ▸ rfl⟩
        rw [Function.comp_apply, hsame]
      have hrest : ∀ x ∈ l.filter (fun b => !b == a), ∀ y ∈ l.filter (fun b => !b == a),
          f x = f y → x = y := by
        intro x hx y hy
        exact h x (List.mem_cons_of_mem a (List.mem_filter.1 hx).1) y
          (List.mem_cons_of_mem a (List.mem_filter.1 hy).1)
      rw [List.map_cons, List.eraseDups_cons, List.eraseDups_cons, List.map_cons, hother,
        ih _ hlen hrest rfl]

/-- Elements that correspond one to one have their first occurrences at the same places. -/
theorem forall₂_eraseDups {R : α → β → Prop} {l : List α} {m : List β} (h : List.Forall₂ R l m)
    (hR : ∀ {a b a' b'}, R a b → R a' b' → (a = a' ↔ b = b')) :
    List.Forall₂ R l.eraseDups m.eraseDups := by
  obtain ⟨hlen, hzip⟩ := List.forall₂_iff_zip.1 h
  have hl : (l.zip m).map Prod.fst = l := List.map_fst_zip (Nat.le_of_eq hlen)
  have hm : (l.zip m).map Prod.snd = m := List.map_snd_zip (Nat.le_of_eq hlen.symm)
  have hfst := eraseDups_map (f := Prod.fst) (l := l.zip m)
    (fun x hx y hy he => Prod.ext he ((hR (hzip hx) (hzip hy)).1 he))
  have hsnd := eraseDups_map (f := Prod.snd) (l := l.zip m)
    (fun x hx y hy he => Prod.ext ((hR (hzip hx) (hzip hy)).2 he) he)
  rw [hl] at hfst
  rw [hm] at hsnd
  rw [hfst, hsnd, List.forall₂_map_left_iff, List.forall₂_map_right_iff, List.forall₂_same]
  exact fun x hx => hzip ((@List.mem_eraseDups _ instBEqOfDecidableEq _ _ _).1 hx)

end Syntagma.Distinct
