/-! Work lists. A step takes the first piece of work and puts smaller pieces in its place, so the
work comes to an end although a step may add any number of pieces. -/

namespace Syntagma

/-- The first element of the second list is replaced by elements below it. -/
inductive Replaces {α : Type} (below : α → α → Prop) : List α → List α → Prop where
  | intro {first : α} {rest new : List α} (h : ∀ a ∈ new, below a first) :
    Replaces below (new ++ rest) (first :: rest)

namespace Replaces

variable {α : Type} {below : α → α → Prop}

theorem acc_nil : Acc (Replaces below) [] :=
  Acc.intro _ (fun _ h => nomatch h)

theorem acc_append {rest new : List α} (hr : Acc (Replaces below) rest)
    (hn : ∀ a ∈ new, ∀ l, Acc (Replaces below) l → Acc (Replaces below) (a :: l)) :
    Acc (Replaces below) (new ++ rest) := by
  induction new with
  | nil => exact hr
  | cons a new ih =>
    exact hn a List.mem_cons_self _ (ih (fun b hb => hn b (List.mem_cons_of_mem a hb)))

theorem acc_cons (hw : WellFounded below) (a : α) :
    ∀ l, Acc (Replaces below) l → Acc (Replaces below) (a :: l) := by
  induction hw.apply a with
  | intro a _ ih =>
    intro l hl
    refine Acc.intro _ (fun m hm => ?_)
    cases hm with
    | intro h => exact acc_append hl (fun b hb => ih b (h b hb))

theorem wellFounded (hw : WellFounded below) : WellFounded (Replaces below) := by
  refine ⟨fun l => ?_⟩
  induction l with
  | nil => exact acc_nil
  | cons a l ih => exact acc_cons hw a l ih

end Replaces

end Syntagma
