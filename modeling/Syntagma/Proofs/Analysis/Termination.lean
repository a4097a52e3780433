import Mathlib
import Syntagma.Proofs.Analysis.Standing

/-! The search always stops. No turn of the work loop can be followed by turns without end, and with
a bound on the dives of a position there is one on the frames visited. Frames that only resume a
position are not checked against the limit, but each of them makes the stack shorter, so the moves
without a token and the positions to resume stay within twice the limit together. -/

namespace Syntagma.Search

open Relation (ReflTransGen)

variable {P : Type} {s : Search P} {f g : Frame P}

/-! ### The work loop -/

/-- One turn of the work loop that goes on: the first frame is replaced by those that follow it. -/
inductive Turns (s : Search P) : List (Frame P) → List (Frame P) → Prop where
  | visit {f : Frame P} {rest new : List (Frame P)} (h : (s.visit f).next = .frames new) :
    Turns s (f :: rest) (new ++ rest)

/-- The work lists with which the loop ends, and the verdict. -/
inductive Ends (s : Search P) : List (Frame P) → Verdict P → Prop where
  | exhausted : Ends s [] .exhausted
  | accepted {f : Frame P} {rest : List (Frame P)} (h : (s.visit f).next = .accepted) :
    Ends s (f :: rest) .accepted
  | undefined {f : Frame P} {rest : List (Frame P)} {token : Token}
    (h : (s.visit f).next = .undefined token) : Ends s (f :: rest) (.undefined token f.place)
  | tooDeep {f : Frame P} {rest : List (Frame P)} (h : (s.visit f).next = .tooDeep) :
    Ends s (f :: rest) .tooDeep

/-- The work lists that the loop comes to from entering the axiom. -/
inductive Works (s : Search P) : List (Frame P) → Prop where
  | start {first : Frame P} (h : s.enter? 0 s.cursor.start .empty 0 = some first) :
    Works s [first]
  | turn {work work' : List (Frame P)} (h : Works s work) (ht : s.Turns work work') :
    Works s work'

theorem replaces_of_turns {work work' : List (Frame P)} (h : s.Turns work work') :
    Replaces s.Below work' work := by
  cases h with
  | visit h => exact .intro (fun _ hg => below_of_visit h hg)

/-- Turns do not go on without end. -/
theorem exists_not_turns (works : ℕ → List (Frame P)) : ∃ n, ¬s.Turns (works n) (works (n + 1)) := by
  by_contra hall
  have hturns : ∀ n, s.Turns (works n) (works (n + 1)) := by
    intro n
    by_contra hn
    exact hall ⟨n, hn⟩
  have hwf := Replaces.wellFounded s.below_wellFounded
  have hnone := wellFounded_iff_isEmpty_descending_chain.1 hwf
  exact hnone.false ⟨works, fun n => replaces_of_turns (hturns n)⟩

/-- A run is a series of turns up to a work list with which the loop ends. -/
theorem run_ends (frames : List (Frame P)) (log : Log P) :
    ∃ work, ReflTransGen s.Turns frames work ∧ s.Ends work (s.run frames log).1 := by
  induction frames, log using Search.run.induct s with
  | case1 log =>
    rw [run_nil]
    exact ⟨[], .refl, .exhausted⟩
  | case2 log f rest v hv =>
    rw [run_of_accepted hv]
    exact ⟨_, .refl, .accepted hv⟩
  | case3 log f rest v token hv =>
    rw [run_of_undefined hv]
    exact ⟨_, .refl, .undefined hv⟩
  | case4 log f rest v hv =>
    rw [run_of_tooDeep hv]
    exact ⟨_, .refl, .tooDeep hv⟩
  | case5 log f rest v new hv ih =>
    rw [run_of_frames hv]
    obtain ⟨work, hturns, hends⟩ := ih
    exact ⟨work, .head (.visit hv) hturns, hends⟩

theorem outcome_cases (s : Search P) (log : Log P) (verdict : Verdict P) :
    (∃ o, s.outcome log verdict = .ok o) ∨
      s.outcome log verdict = .error (.of (.depthExceeded s.maxDepth)) := by
  cases verdict with
  | accepted => exact .inl ⟨_, rfl⟩
  | undefined token place => exact .inl ⟨_, rfl⟩
  | tooDeep => exact .inr rfl
  | exhausted => exact .inl ⟨_, rfl⟩

/-! ### What follows a frame -/

/-- The ways in which a frame can follow another one: behind a token, into a dive, or back to the
position on top of the stack. -/
inductive Successor (s : Search P) (f : Frame P) : Frame P → Prop where
  | token {g : Frame P} (hlt : f.token < s.tokens.size) (ht : g.token = f.token + 1)
    (hs : g.stack.size ≤ f.stack.size) (hi : g.idle = 0) : Successor s f g
  | dive {g : Frame P} (ht : g.token = f.token) (hs : g.stack.size ≤ s.maxDepth)
    (hi : g.idle = f.idle + 1) (hd : g.idle ≤ s.maxDepth) : Successor s f g
  | resume {g : Frame P} (ht : g.token = f.token) (hs : g.stack.size + 1 = f.stack.size)
    (hi : g.idle = f.idle + 1) : Successor s f g

theorem size_add_one_of_pop? {stack rest : Stack P} {top : P} (h : stack.pop? = some (top, rest)) :
    rest.size + 1 = stack.size := by
  obtain ⟨items, size, hsize⟩ := stack
  cases items with
  | nil => exact nomatch h
  | cons p items =>
    cases h
    have hlen : size = items.length + 1 := hsize
    show size - 1 + 1 = size
    omega

theorem size_le_of_enter? {token : Nat} {place : P} {stack : Stack P} {idle : Nat}
    (h : s.enter? token place stack idle = some g) :
    g.token = token ∧ g.idle = idle ∧ g.stack.size ≤ s.maxDepth ∧ g.idle ≤ s.maxDepth := by
  unfold enter? at h
  simp only [Option.ite_none_left_eq_some, Option.some.injEq, Bool.or_eq_true,
    decide_eq_true_eq, not_or, Nat.not_lt] at h
  obtain ⟨⟨hs, hi⟩, rfl⟩ := h
  exact ⟨rfl, rfl, hs, hi⟩

theorem successor_of_dive? {d : Dive P} (h : s.dive? f d = some g) : s.Successor f g := by
  obtain ⟨ht, hi, hs, hd⟩ := size_le_of_enter? h
  exact .dive ht hs hi hd

theorem successor_of_tokenMove {progress : List (Progress P)} {frames : List (Frame P)}
    (h : s.tokenMove f = .go progress frames) (hg : g ∈ frames) : s.Successor f g := by
  unfold tokenMove at h
  split at h
  next =>
    split at h
    · exact nomatch h
    · cases h
      exact absurd hg List.not_mem_nil
  next t ht =>
    have hlt : f.token < s.tokens.size := (Array.getElem?_eq_some_iff.1 ht).1
    split at h
    · exact nomatch h
    split at h
    · cases h
      exact absurd hg List.not_mem_nil
    · cases h
      rw [List.mem_singleton.1 hg]
      exact .token hlt rfl (Nat.le_refl _) rfl
    · split at h
      next top rest hp =>
        cases h
        have hsize := size_add_one_of_pop? hp
        rw [List.mem_singleton.1 hg]
        exact .token hlt rfl (show rest.size ≤ f.stack.size by omega) rfl
      · split at h
        · exact nomatch h
        · cases h
          exact absurd hg List.not_mem_nil

theorem successor_of_mem_leave (hg : g ∈ s.leave f) : s.Successor f g := by
  unfold leave at hg
  split at hg
  · split at hg
    next top rest hp =>
      rw [List.mem_singleton.1 hg]
      exact .resume rfl (size_add_one_of_pop? hp) rfl
    · exact absurd hg List.not_mem_nil
  · exact absurd hg List.not_mem_nil

/-- What a visit that goes on puts in place of the frame: a token move, the dives and a leave. -/
theorem exists_of_visit {new : List (Frame P)} (h : (s.visit f).next = .frames new) :
    ∃ progress moved dived, s.tokenMove f = .go progress moved ∧
      (s.diveAll f (s.cursor.dives f.place)).2 = some dived ∧ new = moved ++ dived ++ s.leave f := by
  unfold visit at h
  split at h
  · exact nomatch h
  · exact nomatch h
  next progress moved hm =>
    split at h
    · exact nomatch h
    next events dived hd =>
      cases h
      exact ⟨progress, moved, dived, hm, by rw [hd], rfl⟩

theorem successor_of_visit {new : List (Frame P)} (h : (s.visit f).next = .frames new)
    (hg : g ∈ new) : s.Successor f g := by
  obtain ⟨progress, moved, dived, hm, hd, rfl⟩ := exists_of_visit h
  simp only [List.mem_append] at hg
  rcases hg with (hg | hg) | hg
  · exact successor_of_tokenMove hm hg
  · obtain ⟨d, -, hdive⟩ := (mem_diveAll hd).1 g hg
    exact successor_of_dive? hdive
  · exact successor_of_mem_leave hg

/-! ### Bounds -/

/-- A frame within the limits. The moves since the last token may exceed the limit by the positions
that were resumed since, so these two are bounded together. -/
structure Within (s : Search P) (f : Frame P) : Prop where
  token : f.token ≤ s.tokens.size
  stack : f.stack.size ≤ s.maxDepth
  both : f.idle + f.stack.size ≤ 2 * s.maxDepth

theorem within_of_enter? {place : P} {stack : Stack P}
    (h : s.enter? 0 place stack 0 = some f) : s.Within f := by
  obtain ⟨ht, hi, hs, -⟩ := size_le_of_enter? h
  exact ⟨by omega, hs, by omega⟩

theorem Within.successor (h : s.Within f) (hg : s.Successor f g) : s.Within g := by
  obtain ⟨htoken, hstack, hboth⟩ := h
  cases hg with
  | token hlt ht hs hi => exact ⟨by omega, by omega, by omega⟩
  | dive ht hs hi hd => exact ⟨by omega, hs, by omega⟩
  | resume ht hs hi => exact ⟨by omega, by omega, by omega⟩

theorem within_of_works {work : List (Frame P)} (h : s.Works work) :
    ∀ f ∈ work, s.Within f := by
  induction h with
  | start hfirst =>
    intro f hf
    rw [List.mem_singleton.1 hf]
    exact within_of_enter? hfirst
  | turn _ ht ih =>
    cases ht with
    | visit hv =>
      intro g hg
      rcases List.mem_append.1 hg with hg | hg
      · exact (ih _ List.mem_cons_self).successor (successor_of_visit hv hg)
      · exact ih g (List.mem_cons_of_mem _ hg)

/-! ### How many frames are visited -/

/-- How many moves a frame within the limits can be followed by at most, one after another. -/
def height (s : Search P) (f : Frame P) : Nat :=
  (s.tokens.size - f.token) * (2 * s.maxDepth + 1) + (2 * s.maxDepth - f.idle)

theorem height_lt (hf : s.Within f) (hg : s.Successor f g) : s.height g < s.height f := by
  have hw := hf.successor hg
  obtain ⟨htoken, hstack, hboth⟩ := hw
  unfold height
  cases hg with
  | token hlt ht hs hi =>
    have hrest : s.tokens.size - f.token = (s.tokens.size - g.token) + 1 := by omega
    rw [hrest, Nat.add_mul]
    omega
  | dive ht hs hi hd =>
    rw [ht]
    omega
  | resume ht hs hi =>
    rw [ht]
    omega

theorem length_diveAll {dives : List (Dive P)} {frames : List (Frame P)}
    (h : (s.diveAll f dives).2 = some frames) : frames.length = dives.length := by
  induction dives generalizing frames with
  | nil =>
    cases h
    rfl
  | cons d rest ih =>
    unfold diveAll at h
    split at h
    · exact nomatch h
    next e he =>
      obtain ⟨more, hm, rfl⟩ := Option.map_eq_some_iff.1 h
      rw [List.length_cons, List.length_cons, ih hm]

theorem length_tokenMove {progress : List (Progress P)} {frames : List (Frame P)}
    (h : s.tokenMove f = .go progress frames) : frames.length ≤ 1 := by
  unfold tokenMove at h
  repeat' split at h
  all_goals simp only [TokenMove.go.injEq, reduceCtorEq] at h
  all_goals simp [← h.2]

theorem length_leave : (s.leave f).length ≤ 1 := by
  unfold leave
  repeat' split
  all_goals simp

theorem length_visit {b : Nat} (hb : ∀ place, (s.cursor.dives place).length ≤ b)
    {new : List (Frame P)} (h : (s.visit f).next = .frames new) : new.length ≤ b + 2 := by
  obtain ⟨progress, moved, dived, hm, hd, rfl⟩ := exists_of_visit h
  have hmoved := length_tokenMove hm
  have hdived := length_diveAll hd
  have hplace := hb f.place
  have hleave := length_leave (s := s) (f := f)
  simp only [List.length_append]
  omega

/-- A weight from which every visit takes at least one. -/
def weight (s : Search P) (b : Nat) (work : List (Frame P)) : Nat :=
  (work.map (fun f => (b + 3) ^ (s.height f + 1))).sum

theorem weight_cons (b : Nat) (f : Frame P) (work : List (Frame P)) :
    s.weight b (f :: work) = (b + 3) ^ (s.height f + 1) + s.weight b work := by
  simp [weight]

theorem weight_append (b : Nat) (work work' : List (Frame P)) :
    s.weight b (work ++ work') = s.weight b work + s.weight b work' := by
  simp [weight]

theorem weight_le {b n : Nat} {work : List (Frame P)} (h : ∀ g ∈ work, s.height g < n) :
    s.weight b work ≤ work.length * (b + 3) ^ n := by
  induction work with
  | nil => simp [weight]
  | cons g work ih =>
    have hrest := ih (fun x hx => h x (List.mem_cons_of_mem g hx))
    have hpow : (b + 3) ^ (s.height g + 1) ≤ (b + 3) ^ n :=
      Nat.pow_le_pow_right (by omega) (h g List.mem_cons_self)
    rw [weight_cons, List.length_cons, Nat.add_mul, Nat.one_mul]
    omega

theorem weight_visit {b : Nat} (hb : ∀ place, (s.cursor.dives place).length ≤ b) (hf : s.Within f)
    {new : List (Frame P)} (h : (s.visit f).next = .frames new) :
    s.weight b new + 1 ≤ (b + 3) ^ (s.height f + 1) := by
  have hlow : ∀ g ∈ new, s.height g < s.height f :=
    fun g hg => height_lt hf (successor_of_visit h hg)
  have hpos : 1 ≤ (b + 3) ^ s.height f := Nat.one_le_pow _ _ (by omega)
  calc s.weight b new + 1
      ≤ new.length * (b + 3) ^ s.height f + (b + 3) ^ s.height f :=
        Nat.add_le_add (weight_le hlow) hpos
    _ ≤ (b + 2) * (b + 3) ^ s.height f + (b + 3) ^ s.height f :=
        Nat.add_le_add_right (Nat.mul_le_mul_right _ (length_visit hb h)) _
    _ = (b + 3) ^ (s.height f + 1) := by ring

theorem steps_run_le {b : Nat} (hb : ∀ place, (s.cursor.dives place).length ≤ b)
    (frames : List (Frame P)) (log : Log P) (hw : ∀ f ∈ frames, s.Within f) :
    (s.run frames log).2.steps ≤ log.steps + s.weight b frames := by
  have hone (f : Frame P) (rest : List (Frame P)) (log : Log P) :
      (log.add (s.visit f)).steps ≤ log.steps + s.weight b (f :: rest) := by
    have hpos : 1 ≤ (b + 3) ^ (s.height f + 1) := Nat.one_le_pow _ _ (by omega)
    have hsteps : (log.add (s.visit f)).steps = log.steps + 1 := rfl
    rw [weight_cons]
    omega
  induction frames, log using Search.run.induct s with
  | case1 log =>
    rw [run_nil]
    exact Nat.le_add_right _ _
  | case2 log f rest v hv =>
    rw [run_of_accepted hv]
    exact hone f rest log
  | case3 log f rest v token hv =>
    rw [run_of_undefined hv]
    exact hone f rest log
  | case4 log f rest v hv =>
    rw [run_of_tooDeep hv]
    exact hone f rest log
  | case5 log f rest v new hv ih =>
    have hf := hw f List.mem_cons_self
    have hnew : ∀ g ∈ new ++ rest, s.Within g := by
      intro g hg
      rcases List.mem_append.1 hg with hg | hg
      · exact hf.successor (successor_of_visit hv hg)
      · exact hw g (List.mem_cons_of_mem f hg)
    have hvisit := weight_visit hb hf hv
    have hrun := ih hnew
    have hsteps : (log.add v).steps = log.steps + 1 := rfl
    rw [weight_append] at hrun
    rw [run_of_frames hv, weight_cons]
    change (s.run (new ++ rest) (log.add v)).2.steps ≤ _
    omega

/-! ### Whole searches -/

theorem search_cases_of_tokens (s : Search P) :
    (∃ outcome, s.search.1 = .ok outcome) ∨
      s.search.1 = .error (.of (.depthExceeded s.maxDepth)) := by
  unfold search
  split
  · exact .inl ⟨_, rfl⟩
  · split
    · exact .inr rfl
    · exact outcome_cases s _ _

/-- Whatever the cursor, the tokens and the limit are, the search stops. The work loop cannot turn
without end, and a run is a finite series of its turns. The result is an outcome or the fault that
the limit was exceeded. No frame on a work list has more positions to resume than the limit allows,
or more than twice as many moves since the last token. If no position has more than `b` dives,
there is a bound on the frames visited. -/
theorem search_stops (s : Search P) :
    (∀ works : ℕ → List (Frame P), ∃ n, ¬s.Turns (works n) (works (n + 1))) ∧
    ((∃ outcome, s.search.1 = .ok outcome) ∨
      s.search.1 = .error (.of (.depthExceeded s.maxDepth))) ∧
    (∀ work, s.Works work → ∀ f ∈ work,
      f.stack.items.length ≤ s.maxDepth ∧ f.idle ≤ 2 * s.maxDepth) ∧
    ∀ first, s.enter? 0 s.cursor.start .empty 0 = some first →
      (∃ work, ReflTransGen s.Turns [first] work ∧ s.Ends work (s.run [first] .empty).1) ∧
      ∀ b, (∀ place, (s.cursor.dives place).length ≤ b) →
        (s.run [first] .empty).2.steps ≤
          (b + 3) ^ ((s.tokens.size + 1) * (2 * s.maxDepth + 1)) := by
  refine ⟨exists_not_turns, search_cases_of_tokens s, fun work hwork f hf => ?_,
    fun first hfirst => ⟨run_ends [first] .empty, fun b hb => ?_⟩⟩
  · obtain ⟨-, hstack, hboth⟩ := within_of_works hwork f hf
    have hsize := f.stack.size_eq
    exact ⟨by omega, by omega⟩
  · have hwithin := within_of_enter? hfirst
    have hsteps := steps_run_le hb [first] .empty (by simpa using hwithin)
    have hheight : s.height first + 1 ≤ (s.tokens.size + 1) * (2 * s.maxDepth + 1) := by
      have hrest : s.tokens.size - first.token ≤ s.tokens.size := Nat.sub_le _ _
      have hmul := Nat.mul_le_mul_right (2 * s.maxDepth + 1) hrest
      rw [height, Nat.add_mul, Nat.one_mul]
      omega
    calc (s.run [first] .empty).2.steps
        ≤ 0 + s.weight b [first] := hsteps
      _ = (b + 3) ^ (s.height first + 1) := by simp [weight]
      _ ≤ (b + 3) ^ ((s.tokens.size + 1) * (2 * s.maxDepth + 1)) :=
        Nat.pow_le_pow_right (by omega) hheight

/-- A search at a position that can only be entered again. -/
def spinning : Search Unit where
  cursor := ⟨(), fun _ => false, fun _ => none, fun _ _ => none, fun _ => [⟨0, (), none⟩],
    fun _ => []⟩
  tokens := #[⟨"x", some 0, .unclassified, .start⟩]
  maxDepth := 2

/-- The position is entered until the limit is exceeded, and at most `4 ^ 10` frames are visited on
the way. -/
theorem spinning_stops : spinning.search.1 = .error (.of (.depthExceeded 2)) ∧
    ∃ first, spinning.enter? 0 spinning.cursor.start .empty 0 = some first ∧
      (spinning.run [first] .empty).2.steps ≤ 4 ^ 10 := by
  have hdeep : spinning.search.1 = .error (.of (.depthExceeded 2)) := by cbv
  obtain ⟨first, hfirst⟩ : ∃ first,
      spinning.enter? 0 spinning.cursor.start .empty 0 = some first := ⟨_, rfl⟩
  obtain ⟨-, hbound⟩ := (search_stops spinning).2.2.2 first hfirst
  exact ⟨hdeep, first, hfirst, hbound 1 (fun _ => Nat.le_refl 1)⟩

end Syntagma.Search
