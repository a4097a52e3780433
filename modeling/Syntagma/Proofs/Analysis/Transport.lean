import Syntagma.Proofs.Analysis.Run
import Syntagma.Proofs.Dictionary

/-! Analysis over two cursors. When a map of positions takes one cursor to another that offers the
same moves, a search over the first becomes the search over the second once its positions are
mapped. Both end with one outcome and the same events. -/

namespace Syntagma

variable {P Q : Type}

def Dive.map (o : Q → P) (d : Dive Q) : Dive P := ⟨d.node, o d.entered, d.continuation.map o⟩

def Stack.map (o : Q → P) (s : Stack Q) : Stack P := ⟨s.items.map o, s.size, by simp [s.size_eq]⟩

def Progress.map (o : Q → P) (e : Progress Q) : Progress P := ⟨e.offset, e.token, e.place.map o⟩

def Frame.map (o : Q → P) (f : Frame Q) : Frame P := ⟨f.token, o f.place, f.stack.map o, f.idle⟩

/-- Whatever a position offers, its image offers too, and nothing else. -/
structure Cursor.MapsTo (d : Cursor Q) (c : Cursor P) (o : Q → P) : Prop where
  start : c.start = o d.start
  interruptable (q : Q) : c.interruptable (o q) = d.interruptable q
  recursion (q : Q) : c.recursion (o q) = (d.recursion q).map o
  step (q : Q) (a : NodeId) : c.step (o q) a = (d.step q a).map (·.map o)
  dives (q : Q) : c.dives (o q) = (d.dives q).map (·.map o)
  expected (q : Q) (name : String) : name ∈ c.expected (o q) ↔ name ∈ d.expected q

namespace Stack

variable (o : Q → P)

@[simp] theorem map_empty : (empty : Stack Q).map o = empty := rfl

@[simp] theorem size_map (s : Stack Q) : (s.map o).size = s.size := rfl

@[simp] theorem isEmpty_map (s : Stack Q) : (s.map o).isEmpty = s.isEmpty := by
  simp [isEmpty, map]

@[simp] theorem pushAll_map (s : Stack Q) (q : Option Q) :
    (s.map o).pushAll (q.map o) = (s.pushAll q).map o := by
  cases q <;> rfl

theorem pop?_map (s : Stack Q) :
    (s.map o).pop? = s.pop?.map (fun e => (o e.1, e.2.map o)) := by
  obtain ⟨items, size, h⟩ := s
  cases items <;> rfl

end Stack

namespace Search

def TokenMove.map (o : Q → P) : TokenMove Q → TokenMove P
  | .accept => .accept
  | .undefined token => .undefined token
  | .go progress frames => .go (progress.map (·.map o)) (frames.map (·.map o))

def Next.map (o : Q → P) : Next Q → Next P
  | .accepted => .accepted
  | .undefined token => .undefined token
  | .tooDeep => .tooDeep
  | .frames new => .frames (new.map (·.map o))

def Visit.map (o : Q → P) (v : Visit Q) : Visit P :=
  ⟨v.progress.map (·.map o), v.events, v.next.map o⟩

def Verdict.map (o : Q → P) : Verdict Q → Verdict P
  | .accepted => .accepted
  | .undefined token place => .undefined token (o place)
  | .tooDeep => .tooDeep
  | .exhausted => .exhausted

def Log.map (o : Q → P) (log : Log Q) : Log P :=
  ⟨log.steps, log.progress.map (·.map o), log.events⟩

/-- The same search over another cursor. -/
def withCursor (s : Search Q) (c : Cursor P) : Search P := ⟨c, s.tokens, s.maxDepth⟩

variable {c : Cursor P} {o : Q → P} {s : Search Q}

theorem tokenMove_map (h : s.cursor.MapsTo c o) (f : Frame Q) :
    (s.withCursor c).tokenMove (f.map o) = (s.tokenMove f).map o := by
  unfold tokenMove
  simp only [withCursor, Frame.map, Stack.isEmpty_map, h.interruptable]
  cases s.tokens[f.token]? with
  | none => by_cases he : f.stack.isEmpty && s.cursor.interruptable f.place <;> simp [he] <;> rfl
  | some t =>
    cases hid : t.id with
    | none => simp [hid, TokenMove.map]
    | some id =>
      simp only [hid, h.step, Stack.pop?_map]
      cases s.cursor.step f.place id with
      | none => rfl
      | some next =>
        cases next with
        | some next => rfl
        | none =>
          cases f.stack.pop? with
          | some e => rfl
          | none => cases s.tokens[f.token + 1]? <;> rfl

theorem enter?_map (h : s.cursor.MapsTo c o) (token : Nat) (q : Q) (stack : Stack Q) (idle : Nat) :
    (s.withCursor c).enter? token (o q) (stack.map o) idle =
      (s.enter? token q stack idle).map (·.map o) := by
  have hs : (stack.map o).pushAll ((s.withCursor c).cursor.recursion (o q)) =
      (stack.pushAll (s.cursor.recursion q)).map o := by
    rw [show (s.withCursor c).cursor.recursion (o q) = _ from h.recursion q, Stack.pushAll_map]
  unfold enter?
  rw [hs]
  simp only [Stack.size_map, apply_ite (Option.map (Frame.map o))]
  rfl

theorem dive?_map (h : s.cursor.MapsTo c o) (f : Frame Q) (d : Dive Q) :
    (s.withCursor c).dive? (f.map o) (d.map o) = (s.dive? f d).map (·.map o) := by
  unfold dive?
  simp only [Frame.map, Dive.map, Stack.pushAll_map]
  exact enter?_map h _ _ _ _

theorem diveAll_map (h : s.cursor.MapsTo c o) (f : Frame Q) (dives : List (Dive Q)) :
    (s.withCursor c).diveAll (f.map o) (dives.map (·.map o)) =
      ((s.diveAll f dives).1, (s.diveAll f dives).2.map (·.map (·.map o))) := by
  induction dives with
  | nil => rfl
  | cons d rest ih =>
    simp only [diveAll, List.map_cons, dive?_map h]
    cases s.dive? f d with
    | none => rfl
    | some g =>
      simp only [Option.map_some, ih, Option.map_map]
      congr 1

theorem leave_map (h : s.cursor.MapsTo c o) (f : Frame Q) :
    (s.withCursor c).leave (f.map o) = (s.leave f).map (·.map o) := by
  unfold leave
  simp only [withCursor, Frame.map, h.interruptable, Stack.pop?_map]
  split
  · cases f.stack.pop? <;> rfl
  · rfl

theorem visit_map (h : s.cursor.MapsTo c o) (f : Frame Q) :
    (s.withCursor c).visit (f.map o) = (s.visit f).map o := by
  unfold visit
  rw [tokenMove_map h]
  cases s.tokenMove f with
  | accept => rfl
  | undefined token => rfl
  | go progress moved =>
    have hd : (s.withCursor c).cursor.dives (f.map o).place =
        (s.cursor.dives f.place).map (·.map o) :=
      h.dives f.place
    simp only [TokenMove.map, hd, diveAll_map h, leave_map h]
    obtain ⟨events, dived⟩ := s.diveAll f (s.cursor.dives f.place)
    cases dived with
    | none => rfl
    | some dived =>
      simp only [Option.map_some, ← List.map_append, List.isEmpty_map]
      rfl

theorem Log.map_add (log : Log Q) (v : Visit Q) :
    (log.add v).map o = (log.map o).add (v.map o) := by
  simp [Log.map, Log.add, Visit.map, List.map_reverse]

/-- The runs of both searches go on in step, visit by visit. -/
theorem run_map (h : s.cursor.MapsTo c o) (frames : List (Frame Q)) (log : Log Q) :
    (s.withCursor c).run (frames.map (·.map o)) (log.map o) =
      ((s.run frames log).1.map o, (s.run frames log).2.map o) := by
  induction frames, log using Search.run.induct s with
  | case1 log => simp [Verdict.map]
  | case2 log f rest v hv =>
    have hm : ((s.withCursor c).visit (f.map o)).next = .accepted := by
      rw [visit_map h, Visit.map, show (s.visit f).next = _ from hv, Next.map]
    rw [List.map_cons, run_of_accepted hm, run_of_accepted hv, visit_map h, Log.map_add,
      Verdict.map]
  | case3 log f rest v token hv =>
    have hm : ((s.withCursor c).visit (f.map o)).next = .undefined token := by
      rw [visit_map h, Visit.map, show (s.visit f).next = _ from hv, Next.map]
    rw [List.map_cons, run_of_undefined hm, run_of_undefined hv, visit_map h, Log.map_add,
      Verdict.map]
    rfl
  | case4 log f rest v hv =>
    have hm : ((s.withCursor c).visit (f.map o)).next = .tooDeep := by
      rw [visit_map h, Visit.map, show (s.visit f).next = _ from hv, Next.map]
    rw [List.map_cons, run_of_tooDeep hm, run_of_tooDeep hv, visit_map h, Log.map_add, Verdict.map]
  | case5 log f rest v new hv ih =>
    have hm : ((s.withCursor c).visit (f.map o)).next = .frames (new.map (·.map o)) := by
      rw [visit_map h, Visit.map, show (s.visit f).next = _ from hv, Next.map]
    rw [List.map_cons, run_of_frames hm, run_of_frames hv, visit_map h, ← Log.map_add,
      ← List.map_append]
    exact ih

end Search

/-! ### Diagnosis and outcome -/

namespace Diagnosis

theorem mem_sortedNames {names : List String} {name : String} :
    name ∈ sortedNames names ↔ name ∈ names := by
  rw [sortedNames, Dictionary.mem_keys_ofList]
  simp

/-- Sorted names depend on nothing but which names there are. -/
theorem sortedNames_congr {names others : List String} (h : ∀ n, n ∈ names ↔ n ∈ others) :
    sortedNames names = sortedNames others :=
  Dictionary.eq_of_ascending (Dictionary.keys_ascending _) (Dictionary.keys_ascending _)
    (fun n => by
      rw [mem_sortedNames, mem_sortedNames, h])

theorem furthest_map (o : Q → P) (progress : List (Progress Q)) :
    furthest (progress.map (·.map o)) = furthest progress := by
  simp only [furthest, List.foldl_map]
  rfl

theorem atFurthest_map (o : Q → P) (progress : List (Progress Q)) :
    atFurthest (progress.map (·.map o)) = (atFurthest progress).map (·.map o) := by
  simp only [atFurthest, furthest_map, List.filter_map]
  rfl

theorem expectedAt_map {d : Cursor Q} {c : Cursor P} {o : Q → P} (h : d.MapsTo c o)
    (places : List Q) : expectedAt c (places.map o) = expectedAt d places := by
  refine sortedNames_congr (fun name => ?_)
  simp only [List.flatMap_map, List.mem_flatMap, h.expected]

theorem diagnose_map {d : Cursor Q} {c : Cursor P} {o : Q → P} (h : d.MapsTo c o)
    (tokens : Array Token) (progress : List (Progress Q)) :
    diagnose c tokens (progress.map (·.map o)) = diagnose d tokens progress := by
  have hp : (atFurthest (progress.map (·.map o))).filterMap (·.place) =
      ((atFurthest progress).filterMap (·.place)).map o := by
    rw [atFurthest_map, List.filterMap_map, List.map_filterMap]
    rfl
  have ht : offending? tokens (progress.map (·.map o)) = offending? tokens progress := by
    rw [offending?, atFurthest_map, List.findSome?_map]
    rfl
  simp only [diagnose, hp, ht, expectedAt_map h, furthest_map]

end Diagnosis

namespace Search

variable {c : Cursor P} {o : Q → P} {s : Search Q}

theorem outcome_map (h : s.cursor.MapsTo c o) (log : Log Q) (v : Verdict Q) :
    (s.withCursor c).outcome (log.map o) (v.map o) = s.outcome log v := by
  cases v with
  | accepted => rfl
  | undefined token q =>
    have hq := Diagnosis.expectedAt_map h [q]
    simp only [List.map_cons, List.map_nil] at hq
    simp only [outcome, Verdict.map, withCursor, hq]
  | tooDeep => rfl
  | exhausted =>
    simp only [outcome, Verdict.map, withCursor, Log.map, ← List.map_reverse,
      Diagnosis.diagnose_map h]

theorem search_withCursor (h : s.cursor.MapsTo c o) : (s.withCursor c).search = s.search := by
  have he : (s.withCursor c).enter? 0 (s.withCursor c).cursor.start .empty 0 =
      (s.enter? 0 s.cursor.start .empty 0).map (·.map o) := by
    have hc : (s.withCursor c).cursor.start = o s.cursor.start := h.start
    rw [hc, ← enter?_map h, Stack.map_empty]
  unfold search
  rw [he, show (s.withCursor c).tokens = s.tokens from rfl,
    show (s.withCursor c).maxDepth = s.maxDepth from rfl]
  split
  · rfl
  · cases s.enter? 0 s.cursor.start .empty 0 with
    | none => rfl
    | some first =>
      have hr := run_map h [first] .empty
      rw [List.map_cons, List.map_nil, show Log.empty.map o = Log.empty from rfl] at hr
      simp only [Option.map_some, hr, outcome_map h]
      rfl

end Search

/-- Analyses over two cursors, one mapped to the other, have the same outcome and events. -/
theorem Cursor.MapsTo.analyze_eq {d : Cursor Q} {c : Cursor P} {o : Q → P} (h : d.MapsTo c o)
    (options : AnalysisOptions) (tokens : List Token) :
    c.analyze options tokens = d.analyze options tokens := by
  have hs (kept : Array Token) : Search.search ⟨c, kept, options.maxDepth⟩ =
      Search.search ⟨d, kept, options.maxDepth⟩ :=
    Search.search_withCursor (s := ⟨d, kept, options.maxDepth⟩) h
  simp only [analyze, hs]

end Syntagma
