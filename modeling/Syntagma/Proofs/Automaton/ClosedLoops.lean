import Syntagma.Proofs.Automaton.TokenPaths

/-! The paths that there are once loops are closed. A new path goes through links that were added
where a medium was met again. In front of the first of them it is an old path, on which no other
token goes on like the medium. Behind the last of them it goes on as the path does on which the
medium was entered, so by what comes behind there the medium has written a text. -/

namespace Syntagma

namespace Arena

variable {a b : Arena} {added : StateId → String → StateId → Prop} {s t : StateId}
  {path : List String}

/-- The second arena differs from the first by added links only. -/
structure Joined (added : StateId → String → StateId → Prop) (a b : Arena) : Prop extends
    a.Extends b where
  size_eq : b.size = a.size
  tokenOf_eq (s : StateId) : b.tokenOf s = a.tokenOf s
  back {s t : StateId} {k : String} : b.link? s k = some t → a.link? s k = some t ∨ added s k t

/-- A path is an old one, or has a first added link. -/
theorem Joined.first (h : Joined added a b) (hw : b.walk? s path = some t) :
    a.walk? s path = some t ∨ ∃ before k behind m m', path = before ++ k :: behind ∧
      a.walk? s before = some m ∧ added m k m' ∧ b.walk? m' behind = some t := by
  induction path generalizing s with
  | nil => exact .inl hw
  | cons key path ih =>
    obtain ⟨next, hl, hw⟩ := Option.bind_eq_some_iff.1 hw
    rcases h.back hl with hold | hnew
    · rcases ih hw with hw | ⟨before, k, behind, m, m', rfl, hbefore, hadded, hbehind⟩
      · exact .inl (by rw [walk?, hold, Option.bind_some, hw])
      · refine .inr ⟨key :: before, k, behind, m, m', rfl, ?_, hadded, hbehind⟩
        rw [walk?, hold, Option.bind_some, hbefore]
    · exact .inr ⟨[], key, path, s, next, rfl, rfl, hnew, hw⟩

/-- A path is an old one, or has a last added link. -/
theorem Joined.last (h : Joined added a b) (hw : b.walk? s path = some t) :
    a.walk? s path = some t ∨ ∃ before k behind m m', path = before ++ k :: behind ∧
      b.walk? s before = some m ∧ added m k m' ∧ a.walk? m' behind = some t := by
  induction path generalizing s with
  | nil => exact .inl hw
  | cons key path ih =>
    obtain ⟨next, hl, hw⟩ := Option.bind_eq_some_iff.1 hw
    rcases ih hw with hw | ⟨before, k, behind, m, m', rfl, hbefore, hadded, hbehind⟩
    · rcases h.back hl with hold | hnew
      · exact .inl (by rw [walk?, hold, Option.bind_some, hw])
      · exact .inr ⟨[], key, path, s, next, rfl, rfl, hnew, hw⟩
    · refine .inr ⟨key :: before, k, behind, m, m', rfl, ?_, hadded, hbehind⟩
      rw [walk?, hl, Option.bind_some, hbefore]

end Arena

namespace TokenWalk

open Arena (Joined)

/-- A loop of a token: at `state`, which one path leads to, the token has the medium left, and the
key leads on as it does from where the medium was entered. -/
structure Loop (g : Grammar) (n : Narrowing) (token : NodeId) (a : Arena) (medium : NodeId)
    (keys entry : List String) (state : StateId) (k : String) (t : StateId) : Prop where
  loops : g.Loops token medium
  only : a.Only keys state
  writes (text : List Char) : n.Reads keys text → g.Writes [token] text [medium]
  text : ∃ text, n.Reads entry text
  enters (text : List Char) : n.Reads entry text → g.Writes [token] text [medium]
  target : a.Only (entry ++ [k]) t
  begins (c : Char) : n.Takes k c → ∃ more last, g.Writes [medium] (c :: more) last

/-- What goes on behind a loop goes on behind the entry of its medium. -/
theorem Loop.walk?_entry {g : Grammar} {n : Narrowing} {token medium : NodeId} {a : Arena}
    {keys entry behind : List String} {state t q : StateId} {k : String}
    (h : Loop g n token a medium keys entry state k t) (hw : a.walk? t behind = some q) :
    a.walk? Arena.root (entry ++ k :: behind) = some q := by
  rw [← List.singleton_append, ← List.append_assoc, Arena.walk?_append, h.target.walk?]
  exact hw

/-- The links that loops of a token add. -/
def Loops (g : Grammar) (n : Narrowing) (token : NodeId) (a : Arena) (state : StateId) (k : String)
    (t : StateId) : Prop :=
  ∃ medium keys entry, Loop g n token a medium keys entry state k t

variable {g : Grammar} {n : Narrowing} {token : Node} {later : List Node} {a b : Arena}
  {medium : NodeId} {keys entry path behind : List String} {state s t : StateId} {k : String}

section Paths

variable (hloops : g.LoopsAlone) (htoken : token ∈ g.tokens)

include hloops htoken in
/-- What goes on like a loop begins no text of another token, be it where the medium was met again
or where it was entered. -/
theorem barred_of_comes (hlater : ∀ other ∈ later, other ∈ g.tokens) (hnew : token ∉ later)
    (hl : g.Loops token.id medium)
    (hwrites : ∀ text, n.Reads keys text → g.Writes [token.id] text [medium])
    (hbegins : ∀ c, n.Takes k c → ∃ more last, g.Writes [medium] (c :: more) last)
    (behind : List String) : g.Barred n later (keys ++ k :: behind) := by
  intro text ht other ho rest last hw
  obtain ⟨before, text, rfl, hbefore, ht⟩ := ht.exists_append
  obtain ⟨c, text, hc, -, rfl⟩ := List.forall₂_cons_left_iff.1 ht
  rw [List.append_assoc, List.cons_append] at hw
  have hcomes : g.Comes token.id medium before c := ⟨hl, hwrites before hbefore, hbegins c hc⟩
  exact hnew (hloops.alone htoken (hlater other ho) hcomes hw ▸ ho)

include hloops htoken in
/-- Where a loop leads to a state that one path leads to, the token has the medium of the loop left
on every path to the state of the loop. -/
theorem Loop.writes_of_joined (hj : Joined (Loops g n token.id a) a b) {keys entry : List String}
    (h : Loop g n token.id a medium keys entry state k t) (hw : b.walk? Arena.root path = some state)
    {text rest : List Char} (ht : n.Reads path text) (hrest : g.Writes [medium] rest []) :
    g.Writes [token.id] (text ++ rest) [] := by
  induction hlength : path.length using Nat.strong_induction_on
    generalizing path medium keys entry state k t text rest with
  | _ length ih =>
    rcases hj.last hw with hold | ⟨before, k', behind, m, m', rfl, hbefore, ⟨medium', keys', entry', h'⟩,
      hbehind⟩
    · obtain rfl := (h.only path).1 hold
      exact (h.writes text ht).trans hrest
    · -- the same keys behind the entry of the other loop lead to this state too
      have hsame : entry' ++ k' :: behind = keys := (h.only _).1 (h'.walk?_entry hbehind)
      obtain ⟨first, _, rfl, hfirst, hrest'⟩ := ht.exists_append
      obtain ⟨c, more, hc, hmore, rfl⟩ := List.forall₂_cons_left_iff.1 hrest'
      obtain ⟨entered, hentered⟩ := h'.text
      have hcomes : g.Comes token.id medium' entered c :=
        ⟨h'.loops, h'.enters entered hentered, h'.begins c hc⟩
      have hwhole := (h.writes (entered ++ c :: more)
        (hsame ▸ List.rel_append hentered (.cons hc hmore))).trans hrest
      rw [List.append_assoc, List.cons_append] at hwhole
      have hclosed := hloops.closed htoken hcomes hwhole
      rw [List.append_assoc, List.cons_append]
      refine ih before.length ?_ h' hbefore hfirst hclosed rfl
      rw [← hlength, List.length_append, List.length_cons]
      omega

include hloops htoken in
/-- Closing loops leaves the states in order for the tokens to come. -/
theorem orderly_of_joined (hlater : ∀ other ∈ later, other ∈ g.tokens) (hnew : token ∉ later)
    (ha : a.Orderly (g.Barred n (token :: later))) (hj : Joined (Loops g n token.id a) a b) :
    b.Orderly (g.Barred n later) := by
  have hfewer (path : List String) (h : g.Barred n (token :: later) path) : g.Barred n later path :=
    fun text ht other ho => h text ht other (List.mem_cons_of_mem _ ho)
  refine ⟨⟨hj.size_eq ▸ ha.closed.root, fun hl => ?_⟩, fun hs => ?_, fun {q} hq => ?_⟩
  · rw [hj.size_eq]
    rcases hj.back hl with hold | ⟨medium, keys, entry, h⟩
    · exact ha.closed.target hold
    · obtain ⟨m, -, hl⟩ := Arena.exists_of_walk?_concat h.target.walk?
      exact ha.closed.target hl
  · exact (ha.reached (hj.size_eq ▸ hs)).imp (fun _ hw => hj.toExtends.walk? hw)
  rw [hj.size_eq] at hq
  by_cases hall : ∀ path, b.walk? Arena.root path = some q → a.walk? Arena.root path = some q
  · refine (ha.single hq).imp ?_ ?_
    · exact fun ⟨keys, ho⟩ => ⟨keys, fun path =>
        ⟨fun hw => (ho path).1 (hall path hw), fun he => hj.toExtends.walk? (he ▸ ho.walk?)⟩⟩
    · exact fun hbarred path hw => hfewer path (hbarred path (hall path hw))
  · -- some path goes through a loop, so all paths to this state go on like the medium of a loop
    obtain ⟨added, hadded⟩ := not_forall.1 hall
    obtain ⟨hw, hout⟩ := Classical.not_imp.1 hadded
    refine .inr (fun path hpath => ?_)
    rcases hj.first hpath with hold | ⟨before, k, behind, m, m', rfl, hbefore, ⟨medium, keys, entry, h⟩, -⟩
    · rcases ha.single hq with ⟨keys, honly⟩ | hbarred
      · obtain ⟨before, k, behind, m, m', rfl, -, ⟨medium, keys', entry, h⟩, hbehind⟩ :=
          (hj.last hw).resolve_left hout
        rw [(honly path).1 hold, ← (honly _).1 (h.walk?_entry hbehind)]
        exact barred_of_comes hloops htoken hlater hnew h.loops h.enters h.begins behind
      · exact hfewer path (hbarred path hold)
    · obtain rfl := (h.only before).1 hbefore
      exact barred_of_comes hloops htoken hlater hnew h.loops h.writes h.begins behind

include hloops htoken in
/-- Closing loops leads to accepting states only by texts that fit. -/
theorem fitting_of_joined (ha : a.Fitting (g.Fits n)) (hj : Joined (Loops g n token.id a) a b) :
    b.Fitting (g.Fits n) := by
  intro q accepted path hq hw
  rw [hj.tokenOf_eq] at hq
  rcases hj.last hw with hold | ⟨before, k, behind, m, m', rfl, hbefore, ⟨medium, keys, entry, h⟩,
    hbehind⟩
  · exact ha q accepted path hq hold
  refine (ha q accepted _ hq (h.walk?_entry hbehind)).imp_right
    (fun ⟨other, ho, hname, hwrites⟩ => ⟨other, ho, hname, fun text ht => ?_⟩)
  obtain ⟨first, _, rfl, hfirst, hrest⟩ := ht.exists_append
  obtain ⟨c, more, hc, hmore, rfl⟩ := List.forall₂_cons_left_iff.1 hrest
  obtain ⟨entered, hentered⟩ := h.text
  have hcomes : g.Comes token.id medium entered c :=
    ⟨h.loops, h.enters entered hentered, h.begins c hc⟩
  have hwhole := hwrites (entered ++ c :: more) (List.rel_append hentered (.cons hc hmore))
  obtain rfl := hloops.alone htoken ho hcomes hwhole
  exact h.writes_of_joined hloops htoken hj hbefore hfirst (hloops.closed htoken hcomes hwhole)

end Paths

end TokenWalk

end Syntagma
