import Syntagma.Proofs.Automaton.Merging

/-! Walks from a merged state. With every key a merged state goes on to what its parts go on to, be
it one of them alone, or to the state merged from both. So it goes on as long as one of its parts
does, and where both stop at accepting states the token of the first counts. -/

namespace Syntagma.Arena

variable {a : Arena} {p s : StateId} {r : StateId × Arena × Merged} {x y q : Option StateId}

/-- A state that stands, if it does, for none, one or both of two states of the arena. -/
structure Paired (a : Arena) (memo : Merged) (x y q : Option StateId) : Prop where
  joins : Joins memo x y q
  left : ∀ i ∈ x, i < a.size
  right : ∀ i ∈ y, i < a.size

namespace Merging

variable (h : Merging a.size a.size a ∅ p s r)
include h

/-- A state that was merged from two others has their links and tokens joined. -/
theorem made_of_done {i j m : StateId} (hm : r.2.2[(i, j)]? = some m) :
    Made a.size r.2.1 r.2.2 i j m := by
  obtain ⟨-, -, hle, hlt⟩ := h.recorded.bounds hm
  obtain ⟨i', j', hmade⟩ := h.made m hle hlt
  cases h.recorded.inj hmade.done hm
  exact hmade

theorem joins_link {i j m : StateId} (hm : r.2.2[(i, j)]? = some m) (k : String) :
    Joins r.2.2 (a.link? i k) (a.link? j k) (r.2.1.link? m k) := by
  have hmade := h.made_of_done hm
  rw [← h.grew.link? hmade.left, ← h.grew.link? hmade.right]
  exact hmade.link k

/-- One key leads from paired states to paired states. -/
theorem paired_bind (ha : a.InRange) (hj : Paired a r.2.2 x y q) (k : String) :
    Paired a r.2.2 (x.bind (a.link? · k)) (y.bind (a.link? · k)) (q.bind (r.2.1.link? · k)) where
  joins := by
    obtain ⟨hjoins, hx, hy⟩ := hj
    cases hjoins with
    | neither => exact .neither
    | first i =>
      simp only [Option.bind_some, Option.bind_none, h.grew.link? (hx i rfl)]
      cases a.link? i k with
      | none => exact .neither
      | some t => exact .first t
    | second j =>
      simp only [Option.bind_some, Option.bind_none, h.grew.link? (hy j rfl)]
      cases a.link? j k with
      | none => exact .neither
      | some t => exact .second t
    | same i =>
      simp only [Option.bind_some, h.grew.link? (hx i rfl)]
      cases a.link? i k with
      | none => exact .neither
      | some t => exact .same t
    | both hm => exact h.joins_link hm k
  left i hi := by
    obtain ⟨j, -, hl⟩ := Option.bind_eq_some_iff.1 hi
    exact ha j k i hl
  right i hi := by
    obtain ⟨j, -, hl⟩ := Option.bind_eq_some_iff.1 hi
    exact ha j k i hl

/-- So do the keys of a whole walk. -/
theorem paired_walk (ha : a.InRange) (hj : Paired a r.2.2 x y q) (keys : List String) :
    Paired a r.2.2 (x.bind (a.walk? · keys)) (y.bind (a.walk? · keys))
      (q.bind (r.2.1.walk? · keys)) := by
  induction keys generalizing x y q with
  | nil => simpa [walk?] using hj
  | cons k keys ih => simpa only [walk?, Option.bind_assoc] using ih (h.paired_bind ha hj k)

/-- The token of the first state counts before that of the second. -/
theorem paired_token (hj : Paired a r.2.2 x y q) :
    q.map r.2.1.tokenOf = Option.merge (· <|> ·) (x.map a.tokenOf) (y.map a.tokenOf) := by
  obtain ⟨hjoins, hx, hy⟩ := hj
  cases hjoins with
  | neither => rfl
  | first i => simp [h.grew.token (hx i rfl)]
  | second j => simp [h.grew.token (hy j rfl)]
  | same i => simp [h.grew.token (hx i rfl)]
  | both hm =>
    have hmade := h.made_of_done hm
    simp [hmade.token, h.grew.token hmade.left, h.grew.token hmade.right]

end Merging

theorem getElem?_eq_of_grew {a' : Arena} {memo memo' : Merged} (h : Grew a memo a' memo')
    {q : StateId} (hq : q < a.size) : a'[q]? = a[q]? := by
  have hq' : q < a'.size := Nat.lt_of_lt_of_le hq h.size_le
  have hlinks := h.links hq
  have htoken := h.token hq
  rw [linksOf, linksOf, Array.getElem?_eq_getElem hq, Array.getElem?_eq_getElem hq'] at hlinks
  rw [tokenOf, tokenOf, Array.getElem?_eq_getElem hq, Array.getElem?_eq_getElem hq'] at htoken
  rw [Array.getElem?_eq_getElem hq, Array.getElem?_eq_getElem hq']
  cases hs : a[q]
  cases hs' : a'[q]
  simp_all

/-- Merging two states comes to an end, leaves the states that are there as they are and adds at most
one for every pair of them. The merged state goes on as long as one of the two does, to the token of
the one that goes on, or of both with the first before the second. -/
theorem merge_simulates (ha : a.InRange) (hp : p < a.size) (hs : s < a.size) :
    ∃ m a' memo', merge p s a ∅ = (m, a', memo') ∧ Merges p s a ∅ (m, a', memo') ∧
      (∀ q < a.size, a'[q]? = a[q]?) ∧ a'.size ≤ a.size + a.size * a.size ∧
      ∀ keys, (a'.walk? m keys).map a'.tokenOf =
        Option.merge (· <|> ·) ((a.walk? p keys).map a.tokenOf) ((a.walk? s keys).map a.tokenOf) := by
  have h := merging_merge (recorded_empty ha) hp hs
  generalize merge p s a ∅ = r at h
  have hpaired : Paired a r.2.2 (some p) (some s) (some r.1) :=
    ⟨.both h.done, fun _ hi => Option.some.inj hi ▸ hp, fun _ hi => Option.some.inj hi ▸ hs⟩
  have hsize : r.2.1.size ≤ a.size + a.size * a.size := by
    have hcount := h.count
    have hmissing := missing_le a.size (∅ : Merged)
    omega
  exact ⟨r.1, r.2.1, r.2.2, rfl, h.runs, fun q hq => getElem?_eq_of_grew h.grew hq, hsize,
    fun keys => h.paired_token (h.paired_walk ha hpaired keys)⟩

/-- Two loops of two and of three states over one key. -/
def unequalLoops : Arena := #[
  ⟨.ofList [("a", 1), ("b", 3)], none⟩,
  ⟨.ofList [("x", 2)], none⟩, ⟨.ofList [("x", 1)], some ⟨"even", "loop"⟩⟩,
  ⟨.ofList [("x", 4)], none⟩, ⟨.ofList [("x", 5)], some ⟨"third", "loop"⟩⟩,
  ⟨.ofList [("x", 3), ("y", 0)], none⟩]

theorem merge_simulates_unequalLoops : unequalLoops.InRange ∧ 1 < unequalLoops.size ∧
    3 < unequalLoops.size ∧ ∃ m a' memo', merge 1 3 unequalLoops ∅ = (m, a', memo') ∧
      a'.size ≤ 42 ∧
      (a'.walk? m ["x"]).map a'.tokenOf = some (some ⟨"even", "loop"⟩) ∧
      (a'.walk? m ["x", "x", "x", "x"]).map a'.tokenOf = some (some ⟨"third", "loop"⟩) ∧
      (a'.walk? m ["x", "x", "y", "a"]).map a'.tokenOf = some none ∧ a'.walk? m ["y"] = none := by
  have hrange : unequalLoops.InRange := inRange_of_all (by decide +kernel)
  obtain ⟨m, a', memo', hmerge, -, -, hsize, hwalk⟩ :=
    merge_simulates hrange (by decide : 1 < unequalLoops.size) (by decide : 3 < unequalLoops.size)
  refine ⟨hrange, by decide, by decide, m, a', memo', hmerge, hsize, ?_, ?_, ?_, ?_⟩
  · exact (hwalk ["x"]).trans (by decide +kernel)
  · exact (hwalk ["x", "x", "x", "x"]).trans (by decide +kernel)
  · exact (hwalk ["x", "x", "y", "a"]).trans (by decide +kernel)
  · exact Option.map_eq_none_iff.1 ((hwalk ["y"]).trans (by decide +kernel))

end Syntagma.Arena
