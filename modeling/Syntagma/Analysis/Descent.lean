import Syntagma.Analysis.Frame

/-! Why the search comes to an end. Every frame that follows a visit is below the frame visited,
in an order without infinite descent. -/

namespace Syntagma.Search

variable {P : Type}

/-- Tokens left, moves left before the limit, and positions to resume: each frame that follows
another has less of the first of these that differs. -/
def rank (s : Search P) (f : Frame P) : Nat × Nat × Nat :=
  (s.tokens.size + 1 - f.token, s.maxDepth + 1 - f.idle, f.stack.size)

def Below (s : Search P) (g f : Frame P) : Prop :=
  WellFoundedRelation.rel (s.rank g) (s.rank f)

theorem below_wellFounded (s : Search P) : WellFounded s.Below :=
  InvImage.wf s.rank WellFoundedRelation.wf

theorem below_of_token {s : Search P} {f g : Frame P} (h : f.token < s.tokens.size)
    (hg : g.token = f.token + 1) : s.Below g f :=
  Prod.Lex.left _ _ (show s.tokens.size + 1 - g.token < s.tokens.size + 1 - f.token by omega)

theorem below_of_idle {s : Search P} {f g : Frame P} (ht : g.token = f.token)
    (hi : f.idle < g.idle) (hd : f.idle ≤ s.maxDepth) : s.Below g f := by
  unfold Below rank
  rw [ht]
  exact Prod.Lex.right _ (Prod.Lex.left _ _
    (show s.maxDepth + 1 - g.idle < s.maxDepth + 1 - f.idle by omega))

theorem below_of_stack {s : Search P} {f g : Frame P} (ht : g.token = f.token)
    (hi : g.idle = f.idle + 1) (hs : g.stack.size < f.stack.size) : s.Below g f := by
  by_cases hd : f.idle ≤ s.maxDepth
  · exact below_of_idle ht (by omega) hd
  · unfold Below rank
    rw [ht, show s.maxDepth + 1 - g.idle = s.maxDepth + 1 - f.idle by omega]
    exact Prod.Lex.right _ (Prod.Lex.right _ hs)

theorem below_of_tokenMove {s : Search P} {f g : Frame P} {progress : List (Progress P)}
    {frames : List (Frame P)} (h : s.tokenMove f = .go progress frames) (hg : g ∈ frames) :
    s.Below g f := by
  unfold tokenMove at h
  split at h
  next =>
    split at h
    · simp at h
    · cases h
      simp at hg
  next t ht =>
    have hlt : f.token < s.tokens.size := (Array.getElem?_eq_some_iff.1 ht).1
    split at h
    · simp at h
    · split at h
      · cases h
        simp at hg
      · cases h
        rw [List.mem_singleton.1 hg]
        exact below_of_token hlt rfl
      · split at h
        · cases h
          rw [List.mem_singleton.1 hg]
          exact below_of_token hlt rfl
        · split at h
          · simp at h
          · cases h
            simp at hg

theorem below_of_dive? {s : Search P} {f g : Frame P} {d : Dive P} (h : s.dive? f d = some g) :
    s.Below g f := by
  unfold dive? enter? at h
  simp only [Option.ite_none_left_eq_some, Bool.or_eq_true, decide_eq_true_eq, not_or,
    Option.some.injEq] at h
  obtain ⟨⟨_, hi⟩, rfl⟩ := h
  exact below_of_idle rfl (Nat.lt_succ_self _) (by simp at hi; omega)

theorem below_of_diveAll {s : Search P} {f g : Frame P} {dives : List (Dive P)}
    {frames : List (Frame P)} (h : (s.diveAll f dives).2 = some frames) (hg : g ∈ frames) :
    s.Below g f := by
  induction dives generalizing frames with
  | nil =>
    cases h
    simp at hg
  | cons d rest ih =>
    unfold diveAll at h
    split at h
    · simp at h
    next e he =>
      obtain ⟨more, hm, rfl⟩ := Option.map_eq_some_iff.1 h
      rcases List.mem_cons.1 hg with rfl | hg
      · exact below_of_dive? he
      · exact ih hm hg

theorem below_of_leave {s : Search P} {f g : Frame P} (hg : g ∈ s.leave f) : s.Below g f := by
  unfold leave at hg
  split at hg
  · split at hg
    next top rest hp =>
      rw [List.mem_singleton.1 hg]
      exact below_of_stack rfl rfl (Stack.size_of_pop? hp)
    · simp at hg
  · simp at hg

/-- Every frame that follows a visit is below the frame visited. -/
theorem below_of_visit {s : Search P} {f g : Frame P} {frames : List (Frame P)}
    (h : (s.visit f).next = .frames frames) (hg : g ∈ frames) : s.Below g f := by
  unfold visit at h
  split at h
  · simp at h
  · simp at h
  next progress moved hm =>
    split at h
    · simp at h
    next events dived hd =>
      cases h
      rcases List.mem_append.1 hg with hg | hg
      · rcases List.mem_append.1 hg with hg | hg
        · exact below_of_tokenMove hm hg
        · exact below_of_diveAll (by rw [hd]) hg
      · exact below_of_leave hg

end Syntagma.Search
