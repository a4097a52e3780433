import Mathlib.Logic.Relation
import Syntagma.Proofs.Analysis.TrieLanguage

/-! How far a rejected script could be read. An exhausted search has left a mark wherever a
derivation in progress can stand, and no others, so the furthest mark is the furthest a derivation
can come, and the names gathered there are those of the tokens it could have read next. -/

namespace Syntagma

open Relation (ReflTransGen)

namespace Grammar

variable {g : Grammar} {ids : List NodeId} {t t' : Standing}

theorem reaches_iff : g.Reaches ids t ↔
    ReflTransGen (g.Leads ids) ⟨0, g.entered g.axiomId⟩ t := by
  constructor
  · intro h
    induction h with
    | start => exact .refl
    | move _ hl ih => exact ih.tail hl
  · intro h
    induction h with
    | refl => exact .start
    | tail _ hl ih => exact ih.move hl

/-- With `k` tokens consumed, some derivation in progress can take a token of this name next. -/
def Expects (g : Grammar) (ids : List NodeId) (k : Nat) (name : String) : Prop :=
  ∃ place rest trie, g.Reaches ids ⟨k, place :: rest⟩ ∧ g.trie? place = some trie ∧
    ∃ e ∈ trie.cases, g.isTokenKey e.1 ∧ g.nameOf e.1 = name

theorem consumed_le_of_leads (hl : g.Leads ids t t') (h : t.consumed ≤ ids.length) :
    t'.consumed ≤ ids.length := by
  cases hl with
  | token _ _ _ ha => exact (List.getElem?_eq_some_iff.1 ha).1
  | dive => exact h
  | pop => exact h

theorem Reaches.consumed_le (h : g.Reaches ids t) : t.consumed ≤ ids.length := by
  induction h with
  | start => exact Nat.zero_le _
  | move _ hl ih => exact consumed_le_of_leads hl ih

/-- The names expected at a position are those of the tokens that can come next there, or right
after a nonterminal is entered. -/
theorem mem_expected_cursor {place : NodeId} {name : String} : name ∈ g.cursor.expected place ↔
    ∃ trie, g.trie? place = some trie ∧
      ((∃ e ∈ trie.cases, g.isTokenKey e.1 ∧ g.nameOf e.1 = name) ∨
        ∃ e ∈ trie.cases, g.isTokenKey e.1 = false ∧ ∃ inner, g.trie? e.1 = some inner ∧
          ∃ e' ∈ inner.cases, g.isTokenKey e'.1 ∧ g.nameOf e'.1 = name) := by
  have hnames (trie : Trie) : name ∈ g.tokenNamesOf trie ↔
      ∃ e ∈ trie.cases, g.isTokenKey e.1 ∧ g.nameOf e.1 = name := by
    simp only [tokenNamesOf, List.mem_map, List.mem_filter, and_assoc]
  have hentered (head : NodeId) (inner : Trie) : g.entered? head = some inner ↔
      g.isTokenKey head = false ∧ g.trie? head = some inner := by
    unfold entered?
    cases g.isTokenKey head <;> simp
  simp only [cursor]
  cases g.trie? place with
  | none => simp
  | some trie =>
    simp only [List.mem_append, List.mem_flatMap, List.mem_filterMap, hnames, hentered,
      Option.some.injEq, exists_eq_left']
    refine or_congr_right ⟨?_, ?_⟩
    · rintro ⟨inner, ⟨e, he, hk, hi⟩, hn⟩
      exact ⟨e, he, hk, inner, hi, hn⟩
    · rintro ⟨e, he, hk, inner, hi, hn⟩
      exact ⟨inner, ⟨e, he, hk, hi⟩, hn⟩

end Grammar

namespace Search.Over

variable {s : Search NodeId} {g : Grammar} {ids : List NodeId}

/-- A standing has left its mark: how far it is, and its position if it can go on from there. -/
structure Noted (s : Search NodeId) (g : Grammar) (progress : List (Progress NodeId))
    (t : Standing) : Prop where
  far : ∃ place, s.mark t.consumed place ∈ progress
  place (place : NodeId) (rest : List NodeId) : t.places = place :: rest →
    (g.trie? place).isSome → s.mark t.consumed (some place) ∈ progress

theorem Noted.mono {progress progress' : List (Progress NodeId)} {t : Standing}
    (h : Noted s g progress t) (hsub : ∀ m ∈ progress, m ∈ progress') : Noted s g progress' t where
  far := h.far.imp (fun _ hm => hsub _ hm)
  place p rest hp ht := hsub _ (h.place p rest hp ht)

theorem mem_progress_add {log : Log NodeId} {v : Visit NodeId} {m : Progress NodeId} :
    m ∈ (log.add v).progress ↔ m ∈ v.progress ∨ m ∈ log.progress := by
  simp [Log.add]

theorem Follows.noted {f : Frame NodeId} {progress : List (Progress NodeId)}
    {new : List (Frame NodeId)} (h : Follows s g ids f progress new) :
    Noted s g progress f.standing := by
  refine ⟨⟨_, h.here⟩, fun place rest hp _ => ?_⟩
  cases hp
  exact h.here

/-- Induction along a run that is exhausted: every visit on the way goes on. -/
@[elab_as_elim]
theorem exhausted_induction (h : s.Over g ids)
    {motive : List (Frame NodeId) → Log NodeId → Prop} (nil : ∀ log, motive [] log)
    (visit : ∀ f rest log new, Follows s g ids f (s.visit f).progress new →
      s.run (f :: rest) log = s.run (new ++ rest) (log.add (s.visit f)) →
      motive (new ++ rest) (log.add (s.visit f)) → motive (f :: rest) log)
    (frames : List (Frame NodeId)) (log : Log NodeId) (hr : (s.run frames log).1 = .exhausted) :
    motive frames log := by
  induction frames, log using Search.run.induct s with
  | case1 log => exact nil log
  | case2 log f rest v hv =>
    rw [run_of_accepted hv] at hr
    cases hr
  | case3 log f rest v token hv =>
    rw [run_of_undefined hv] at hr
    cases hr
  | case4 log f rest v hv =>
    rw [run_of_tooDeep hv] at hr
    cases hr
  | case5 log f rest v new hv ih =>
    have hrun := run_of_frames hv rest log
    rcases h.visit_cases f with ⟨hd, -⟩ | hd | ⟨new', hd, hf⟩
    · cases hd.symm.trans hv
    · cases hd.symm.trans hv
    obtain rfl : new = new' := Next.frames.inj (hv.symm.trans hd)
    exact visit f rest log new hf hrun (ih (hrun ▸ hr))

/-- A run without a derivation notes whatever its frames lead to. -/
theorem run_notes (h : s.Over g ids) (frames : List (Frame NodeId)) (log : Log NodeId)
    (hr : (s.run frames log).1 = .exhausted) :
    (∀ m ∈ log.progress, m ∈ (s.run frames log).2.progress) ∧
      ∀ f ∈ frames, ∀ t, ReflTransGen (g.Leads ids) f.standing t →
        Noted s g (s.run frames log).2.progress t := by
  refine h.exhausted_induction (fun log => ?_) (fun f rest log new hf hrun ih => ?_) frames log hr
  · rw [run_nil]
    exact ⟨fun _ hm => hm, fun _ hf => absurd hf List.not_mem_nil⟩
  · rw [hrun]
    obtain ⟨hsub, hnoted⟩ := ih
    have hvisit : ∀ m ∈ (s.visit f).progress,
        m ∈ (s.run (new ++ rest) (log.add (s.visit f))).2.progress :=
      fun m hm => hsub m (mem_progress_add.2 (.inl hm))
    refine ⟨fun m hm => hsub m (mem_progress_add.2 (.inr hm)), fun e he t ht => ?_⟩
    rcases List.mem_cons.1 he with rfl | he
    · rcases ht.cases_head with rfl | ⟨t', hl, ht⟩
      · exact hf.noted.mono hvisit
      rcases hf.all t' hl with ⟨e', he', rfl⟩ | ⟨hstuck, place, hm⟩
      · exact hnoted e' (List.mem_append_left _ he') t ht
      · -- nothing follows a stuck standing, and its position offers nothing
        rcases ht.cases_head with rfl | ⟨t'', hl', -⟩
        · refine ⟨⟨place, hvisit _ hm⟩, fun p rest hp htrie => ?_⟩
          cases hstuck with
          | ended => exact nomatch hp
          | bare hn =>
            cases hp
            rw [hn] at htrie
            exact nomatch htrie
        · exact absurd hl' hstuck.not_leads
    · exact hnoted e (List.mem_append_right _ he) t ht

/-- A run marks nothing but what its frames lead to. -/
theorem run_marks (h : s.Over g ids) (frames : List (Frame NodeId)) (log : Log NodeId)
    (hr : (s.run frames log).1 = .exhausted) :
    ∀ m ∈ (s.run frames log).2.progress, m ∈ log.progress ∨
      ∃ f ∈ frames, ∃ t, ReflTransGen (g.Leads ids) f.standing t ∧
        m = s.mark t.consumed t.places.head? := by
  refine h.exhausted_induction (fun log => ?_) (fun f rest log new hf hrun ih => ?_) frames log hr
  · rw [run_nil]
    exact fun _ hm => .inl hm
  · rw [hrun]
    intro m hm
    rcases ih m hm with hm | ⟨e, he, t, ht, hm⟩
    · rcases mem_progress_add.1 hm with hm | hm
      · refine .inr ⟨f, List.mem_cons_self, ?_⟩
        rcases hf.marks m hm with rfl | ⟨rfl, hl⟩
        · exact ⟨_, .refl, rfl⟩
        · exact ⟨_, .single hl, rfl⟩
      · exact .inl hm
    · refine .inr ?_
      rcases List.mem_append.1 he with he | he
      · exact ⟨f, List.mem_cons_self, t, .head (hf.leads e he) ht, hm⟩
      · exact ⟨e, List.mem_cons_of_mem f he, t, ht, hm⟩

/-! ### Offsets -/

theorem offset_mark {P : Type} (s : Search P) (k : Nat) (place place' : Option P) :
    (s.mark k place).offset = (s.mark k place').offset := by
  unfold mark
  split <;> rfl

theorem place_mark {P : Type} (s : Search P) (k : Nat) (place : Option P) :
    (s.mark k place).place = place := by
  unfold mark
  split <;> rfl

theorem token_mark {P : Type} (s : Search P) (k : Nat) (place : Option P) :
    (s.mark k place).token = if k < s.tokens.size then some k else none := by
  unfold mark
  split
  next h => rw [if_pos (Array.getElem?_eq_some_iff.1 h).1]
  next h => rw [if_neg (Nat.not_lt.2 (Array.getElem?_eq_none_iff.1 h))]

/-- Later marks are at greater offsets if the tokens stand one behind the other and have names. -/
theorem offset_mark_lt {P : Type} {s : Search P}
    (hpos : s.tokens.toList.Pairwise (fun t t' => t.position.offset < t'.position.offset))
    (hname : ∀ t ∈ s.tokens, t.name ≠ "") {j k : Nat} (hjk : j < k) (hk : k ≤ s.tokens.size)
    (place place' : Option P) : (s.mark j place).offset < (s.mark k place').offset := by
  have hj : j < s.tokens.size := by omega
  have hlast : s.tokens.size - 1 < s.tokens.size := by omega
  have hat (i : Nat) (hi : i < s.tokens.size) (place : Option P) :
      (s.mark i place).offset = s.tokens[i].position.offset := by
    simp [mark, Array.getElem?_eq_getElem hi]
  have hlt (i i' : Nat) (hi : i' < s.tokens.size) (h : i < i') :
      s.tokens[i].position.offset < s.tokens[i'].position.offset := by
    have := List.pairwise_iff_getElem.1 hpos i i' (by simp; omega) (by simpa using hi) h
    simpa using this
  rcases Nat.lt_or_ge k s.tokens.size with hk' | hk'
  · rw [hat j hj, hat k hk']
    exact hlt j k hk' hjk
  · -- the end of the script is behind the last token, which is not before token `j`
    have hend : (s.mark k place').offset =
        s.tokens[s.tokens.size - 1].position.offset + s.tokens[s.tokens.size - 1].name.length := by
      simp [mark, Array.getElem?_eq_none hk', endOffset, Array.back?,
        Array.getElem?_eq_getElem hlast, Token.endOffset]
    have hne : s.tokens[s.tokens.size - 1].name.length ≠ 0 := by
      rw [Ne, String.length_eq_zero_iff]
      exact hname _ (Array.getElem_mem hlast)
    rw [hat j hj, hend]
    rcases Nat.lt_or_ge j (s.tokens.size - 1) with hj' | hj'
    · have := hlt j (s.tokens.size - 1) hlast hj'
      omega
    · obtain rfl : j = s.tokens.size - 1 := by omega
      omega

end Search.Over

/-! ### The diagnosis -/

namespace Diagnosis

variable {P : Type} {progress : List (Progress P)} {m : Progress P}

theorem le_furthest (h : m ∈ progress) : m.offset ≤ furthest progress := by
  have hinit (l : List (Progress P)) (n : Nat) : n ≤ l.foldl (fun n e => max n e.offset) n := by
    induction l generalizing n with
    | nil => exact Nat.le_refl n
    | cons e l ih => exact Nat.le_trans (Nat.le_max_left _ _) (ih _)
  unfold furthest
  generalize 0 = n
  induction progress generalizing n with
  | nil => exact absurd h List.not_mem_nil
  | cons e l ih =>
    rcases List.mem_cons.1 h with rfl | h
    · exact Nat.le_trans (Nat.le_max_right _ _) (hinit _ _)
    · exact ih h _

theorem exists_furthest (h : m ∈ progress) : ∃ e ∈ progress, e.offset = furthest progress := by
  have hfold (l : List (Progress P)) (n : Nat) : l.foldl (fun n e => max n e.offset) n = n ∨
      ∃ e ∈ l, e.offset = l.foldl (fun n e => max n e.offset) n := by
    induction l generalizing n with
    | nil => exact .inl rfl
    | cons e l ih =>
      rw [List.foldl_cons]
      rcases ih (max n e.offset) with he | ⟨e', he', heq⟩
      · rcases Nat.le_total n e.offset with hn | hn
        · rw [he]
          exact .inr ⟨e, List.mem_cons_self, (Nat.max_eq_right hn).symm⟩
        · rw [he]
          exact .inl (Nat.max_eq_left hn)
      · exact .inr ⟨e', List.mem_cons_of_mem e he', heq⟩
  rcases hfold progress 0 with h0 | he
  · have := le_furthest h
    refine ⟨m, h, ?_⟩
    unfold furthest at this ⊢
    omega
  · exact he

theorem mem_atFurthest : m ∈ atFurthest progress ↔ m ∈ progress ∧ m.offset = furthest progress := by
  simp [atFurthest]

/-- The marks are those of the standings that can be reached, and all of them. -/
structure Marked (s : Search NodeId) (g : Grammar) (ids : List NodeId)
    (progress : List (Progress NodeId)) : Prop where
  sound : ∀ m ∈ progress, ∃ t, g.Reaches ids t ∧ m = s.mark t.consumed t.places.head?
  noted (t : Standing) : g.Reaches ids t → Search.Over.Noted s g progress t

namespace Marked

variable {s : Search NodeId} {g : Grammar} {ids : List NodeId} {progress : List (Progress NodeId)}

/-- The furthest marks are those of the standings with the most tokens consumed. -/
theorem exists_furthest (h : Marked s g ids progress) (hs : s.Over g ids)
    (hpos : s.tokens.toList.Pairwise (fun t t' => t.position.offset < t'.position.offset))
    (hname : ∀ t ∈ s.tokens, t.name ≠ "") :
    ∃ k ≤ ids.length, (∃ t, g.Reaches ids t ∧ t.consumed = k) ∧
      (∀ t, g.Reaches ids t → t.consumed ≤ k) ∧ furthest progress = (s.mark k none).offset ∧
      ∀ j ≤ ids.length, ∀ place, s.mark j place ∈ atFurthest progress ↔
        j = k ∧ s.mark j place ∈ progress := by
  have hlt {j k : Nat} (hjk : j < k) (hk : k ≤ ids.length) (place place' : Option NodeId) :
      (s.mark j place).offset < (s.mark k place').offset :=
    Search.Over.offset_mark_lt hpos hname hjk (hs.size_eq ▸ hk) place place'
  obtain ⟨place, hfirst⟩ := (h.noted _ .start).far
  obtain ⟨m, hm, hfar⟩ := Diagnosis.exists_furthest hfirst
  obtain ⟨t, ht, rfl⟩ := h.sound m hm
  refine ⟨t.consumed, ht.consumed_le, ⟨t, ht, rfl⟩, fun t' ht' => ?_, ?_, fun j hj place => ?_⟩
  · obtain ⟨place, hplace⟩ := (h.noted t' ht').far
    refine Nat.le_of_not_lt (fun hgt => ?_)
    have hle := le_furthest hplace
    have := hlt hgt ht'.consumed_le t.places.head? place
    omega
  · rw [← hfar]
    exact Search.Over.offset_mark s _ _ _
  · rw [mem_atFurthest, ← hfar, and_comm]
    refine and_congr_left (fun _ => ⟨fun he => ?_, fun he => ?_⟩)
    · rcases Nat.lt_trichotomy j t.consumed with hjk | hjk | hjk
      · have := hlt hjk ht.consumed_le place t.places.head?
        omega
      · exact hjk
      · have := hlt hjk hj t.places.head? place
        omega
    · rw [he]
      exact Search.Over.offset_mark s _ _ _

/-- Unless the script has ended at the furthest mark, the token there is the offending one. -/
theorem offending?_eq {k : Nat} (hreached : ∃ t, g.Reaches ids t ∧ t.consumed = k)
    (h : Marked s g ids progress) (hfar : ∀ j ≤ ids.length, ∀ place,
      s.mark j place ∈ atFurthest progress ↔ j = k ∧ s.mark j place ∈ progress) :
    offending? s.tokens progress = s.tokens[k]? := by
  obtain ⟨t, ht, rfl⟩ := hreached
  obtain ⟨place, hmark⟩ := (h.noted t ht).far
  have hmem := (hfar t.consumed ht.consumed_le place).2 ⟨rfl, hmark⟩
  have hall : ∀ m ∈ atFurthest progress,
      m.token = if t.consumed < s.tokens.size then some t.consumed else none := by
    intro m hm
    obtain ⟨t', ht', rfl⟩ := h.sound m (mem_atFurthest.1 hm).1
    rw [← ((hfar _ ht'.consumed_le _).1 hm).1]
    exact Search.Over.token_mark s _ _
  unfold offending?
  by_cases hk : t.consumed < s.tokens.size
  · have hfind : (atFurthest progress).findSome? (·.token) = some t.consumed := by
      cases hl : atFurthest progress with
      | nil => exact absurd (hl ▸ hmem) List.not_mem_nil
      | cons m l =>
        have hm := hall m (hl ▸ List.mem_cons_self)
        rw [if_pos hk] at hm
        rw [List.findSome?_cons, hm]
    rw [hfind, Option.bind_some]
  · have hfind : (atFurthest progress).findSome? (·.token) = none := by
      rw [List.findSome?_eq_none_iff]
      exact fun m hm => (hall m hm).trans (if_neg hk)
    rw [hfind, Option.bind_none, Array.getElem?_eq_none (Nat.le_of_not_lt hk)]

/-- The names gathered at the furthest marks are those of the tokens that can be read next. -/
theorem mem_expected_iff (hs : s.Over g ids) {k : Nat} (hk : k ≤ ids.length)
    (h : Marked s g ids progress)
    (hfar : ∀ j ≤ ids.length, ∀ place, s.mark j place ∈ atFurthest progress ↔
      j = k ∧ s.mark j place ∈ progress) (name : String) :
    name ∈ expectedAt s.cursor ((atFurthest progress).filterMap (·.place)) ↔
      g.Expects ids k name := by
  rw [expectedAt, mem_sortedNames, List.mem_flatMap, hs.cursor]
  constructor
  · rintro ⟨place, hplace, hname⟩
    obtain ⟨m, hm, hp⟩ := List.mem_filterMap.1 hplace
    obtain ⟨t, ht, rfl⟩ := h.sound m (mem_atFurthest.1 hm).1
    obtain ⟨rfl, -⟩ := (hfar _ ht.consumed_le _).1 hm
    rw [Search.Over.place_mark] at hp
    obtain ⟨k, places⟩ := t
    cases places with
    | nil => cases hp
    | cons place' rest =>
      obtain rfl := Option.some.inj hp
      obtain ⟨trie, htrie, he | ⟨e, he, hkey, inner, hi, hin⟩⟩ :=
        Grammar.mem_expected_cursor.1 hname
      · exact ⟨_, rest, trie, ht, htrie, he⟩
      · exact ⟨e.1, _, inner, ht.move (.dive htrie he hkey), hi, hin⟩
  · rintro ⟨place, rest, trie, ht, htrie, he⟩
    have hmark := (h.noted _ ht).place place rest rfl (by rw [htrie]; rfl)
    refine ⟨place, List.mem_filterMap.2 ⟨_, (hfar k hk _).2 ⟨rfl, hmark⟩, ?_⟩, ?_⟩
    · exact Search.Over.place_mark s k _
    · exact Grammar.mem_expected_cursor.2 ⟨trie, htrie, .inl he⟩

end Marked

theorem expectedAt_ascending (cursor : Cursor P) (places : List P) :
    (expectedAt cursor places).Pairwise (· < ·) :=
  (Dictionary.keys_ascending _).imp (fun h => compareOfLessAndEq_eq_lt.1 h)

/-- What is reported for marks that are those of the standings that can be reached. -/
theorem diagnose_of_marked {s : Search NodeId} {g : Grammar} {ids : List NodeId}
    {progress : List (Progress NodeId)} (hs : s.Over g ids) (h : Marked s g ids progress)
    (hpos : s.tokens.toList.Pairwise (fun t t' => t.position.offset < t'.position.offset))
    (hname : ∀ t ∈ s.tokens, t.name ≠ "") {d : Diagnostic}
    (hd : diagnose s.cursor s.tokens progress = d) :
    ∃ k, (∃ t, g.Reaches ids t ∧ t.consumed = k) ∧ (∀ t, g.Reaches ids t → t.consumed ≤ k) ∧
      ((∃ t, s.tokens[k]? = some t ∧ d.kind = .unexpectedToken ∧ d.tokens = [t] ∧
          d.position = t.position.offset) ∨
        (k = s.tokens.size ∧ d.kind = .unexpectedEndOfScript ∧ d.tokens = s.tokens.back?.toList ∧
          d.position = s.endOffset)) ∧
      d.expected.Pairwise (· < ·) ∧ ∀ name, name ∈ d.expected ↔ g.Expects ids k name := by
  obtain ⟨k, hk, hreached, hmax, hfurthest, hfar⟩ := h.exists_furthest hs hpos hname
  have hoff := Marked.offending?_eq hreached h hfar
  have hexpected := Marked.mem_expected_iff hs hk h hfar
  refine ⟨k, hreached, hmax, ?_⟩
  unfold diagnose at hd
  rw [hoff] at hd
  cases ht : s.tokens[k]? with
  | some t =>
    simp only [ht] at hd
    subst hd
    refine ⟨.inl ⟨t, rfl, rfl, rfl, ?_⟩, expectedAt_ascending _ _, hexpected⟩
    simp [hfurthest, Search.mark, ht]
  | none =>
    simp only [ht] at hd
    subst hd
    have hsize : k = s.tokens.size :=
      Nat.le_antisymm (hs.size_eq ▸ hk) (Array.getElem?_eq_none_iff.1 ht)
    refine ⟨.inr ⟨hsize, rfl, rfl, ?_⟩, expectedAt_ascending _ _, hexpected⟩
    simp [hfurthest, Search.mark, ht]

end Diagnosis

/-- An exhausted search from entering the axiom is marked as its diagnosis needs it. -/
theorem Search.Over.marked_of_exhausted {s : Search NodeId} {g : Grammar} {ids : List NodeId}
    (h : s.Over g ids) {first : Frame NodeId}
    (hfirst : first.standing = ⟨0, g.entered g.axiomId⟩)
    (hr : (s.run [first] .empty).1 = .exhausted) :
    Diagnosis.Marked s g ids (s.run [first] .empty).2.progress.reverse := by
  refine ⟨fun m hm => ?_, fun t ht => ?_⟩
  · rcases h.run_marks _ _ hr m (List.mem_reverse.1 hm) with hm | ⟨f, hf, t, ht, hm⟩
    · exact absurd hm List.not_mem_nil
    · rw [List.mem_singleton.1 hf, hfirst] at ht
      exact ⟨t, Grammar.reaches_iff.2 ht, hm⟩
  · have hn := (h.run_notes _ _ hr).2 first (List.mem_singleton_self _) t
      (hfirst ▸ Grammar.reaches_iff.1 ht)
    exact hn.mono (fun m hm => List.mem_reverse.2 hm)

/-- A rejection of tokens with ids is the diagnosis of an exhausted search. -/
theorem exists_marked_of_rejected {g : Grammar} (hg : g.Linked) {p : PushdownAutomaton}
    (hp : PushdownAutomaton.ofGrammar g = .ok p) (settings : AnalysisOptions) {tokens : List Token}
    {ids : List NodeId} (hne : tokens ≠ []) (h : tokens.map (·.id) = ids.map some) {d : Diagnostic}
    (hd : (analyze g p settings tokens).1 = .ok (.rejected d)) :
    ∃ progress, Diagnosis.Marked (g.searchOf settings tokens) g ids progress ∧
      Diagnosis.diagnose (g.searchOf settings tokens).cursor (g.searchOf settings tokens).tokens
        progress = d := by
  have hover := hg.isOver h settings
  have hids : ids ≠ [] := by
    rintro rfl
    exact hne (List.map_eq_nil_iff.1 h)
  rw [analyze_eq_search hp settings h] at hd
  rcases hover.search_cases hids with hdeep | ⟨first, hfirst, he⟩
  · exact nomatch hdeep.symm.trans hd
  rw [he] at hd
  rcases hover.run_decides [first] .empty with ⟨hr, -⟩ | hr | ⟨hr, -⟩
  · rw [hr] at hd
    exact nomatch hd
  · rw [hr] at hd
    exact nomatch hd
  · rw [hr] at hd
    cases hd
    exact ⟨_, hover.marked_of_exhausted hfirst hr, rfl⟩

/-- For every compiled grammar and every script of named tokens with ids, one behind the other: a
rejection reports the furthest place that a derivation in progress can reach, and all that could
have been read there. -/
theorem rejected_at_furthest {description : GrammarDescription} {options : GrammarOptions}
    {g : Grammar} (h : Grammar.compile description options = .ok g) :
    ∃ p, PushdownAutomaton.ofGrammar g = .ok p ∧
      ∀ (settings : AnalysisOptions) (tokens : List Token) (ids : List NodeId) (d : Diagnostic),
        tokens ≠ [] → tokens.map (·.id) = ids.map some →
        tokens.Pairwise (fun t t' => t.position.offset < t'.position.offset) →
        (∀ t ∈ tokens, t.name ≠ "") → (analyze g p settings tokens).1 = .ok (.rejected d) →
        ∃ k, (∃ t, g.Reaches ids t ∧ t.consumed = k) ∧ (∀ t, g.Reaches ids t → t.consumed ≤ k) ∧
          ((k < tokens.length ∧ d.kind = .unexpectedToken ∧ ∃ t, tokens[k]? = some t ∧
              d.tokens = [t] ∧ d.position = t.position.offset) ∨
            (k = tokens.length ∧ d.kind = .unexpectedEndOfScript ∧ ∃ t, tokens.getLast? = some t ∧
              d.tokens = [t] ∧ d.position = t.endOffset)) ∧
          d.expected.Pairwise (· < ·) ∧ ∀ name, name ∈ d.expected ↔ g.Expects ids k name := by
  have hg := linked_of_compile h
  obtain ⟨p, hp⟩ := exists_ofGrammar_of_compile h
  refine ⟨p, hp, fun settings tokens ids d hne hids hpos hname hd => ?_⟩
  obtain ⟨progress, hmarked, hdiag⟩ := exists_marked_of_rejected hg hp settings hne hids hd
  obtain ⟨k, hreached, hmax, hwhere, hexpected⟩ :=
    Diagnosis.diagnose_of_marked (hg.isOver hids settings) hmarked hpos
      (fun t ht => hname t (List.mem_toArray.1 ht)) hdiag
  refine ⟨k, hreached, hmax, ?_, hexpected⟩
  have hsize : (g.searchOf settings tokens).tokens.size = tokens.length := List.size_toArray
  rcases hwhere with ⟨t, ht, hkind, htokens, hposition⟩ | ⟨hk, hkind, htokens, hposition⟩
  · have ht' : tokens[k]? = some t := by simpa [Grammar.searchOf] using ht
    exact .inl ⟨(List.getElem?_eq_some_iff.1 ht').1, hkind, t, ht', htokens, hposition⟩
  · obtain ⟨t, ht⟩ := Option.isSome_iff_exists.1 (List.getLast?_isSome.2 hne)
    have hback : (g.searchOf settings tokens).tokens.back? = some t := by
      simpa [Grammar.searchOf] using ht
    refine .inr ⟨hk.trans hsize, hkind, t, ht, ?_, ?_⟩
    · rw [htokens, hback]
      rfl
    · rw [hposition, Search.endOffset, hback]
      rfl

/-- A sum that ends with its sign gets no further than its end, and there only a letter can
follow. -/
theorem unfinished_sum_at_furthest : ∃ g, Grammar.compile sums {} = .ok g ∧
    (∃ t, g.Reaches [1, 0] t ∧ t.consumed = 2) ∧ (∀ t, g.Reaches [1, 0] t → t.consumed ≤ 2) ∧
      ∀ name, name ∈ ["a"] ↔ g.Expects [1, 0] 2 name := by
  obtain ⟨g, hg, p, hp, -, hpart⟩ := verdict_sums
  obtain ⟨p', hp', hfurthest⟩ := rejected_at_furthest hg
  obtain rfl := Except.ok.inj (hp.symm.trans hp')
  obtain ⟨k, hreached, hmax, hwhere, -, hexpected⟩ := hfurthest {} (sumTokens.take 2) [1, 0]
    unfinishedSum (by decide) rfl (by decide) (by decide) hpart
  obtain rfl : k = 2 := by
    rcases hwhere with ⟨-, hkind, -⟩ | ⟨hk, -⟩
    · exact nomatch hkind
    · exact hk
  exact ⟨g, hg, hreached, hmax, hexpected⟩

end Syntagma
