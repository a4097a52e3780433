import Syntagma.Text.Cluster.Properties

/-! Clusters of characters that a reader takes for one: the extended grapheme clusters of Unicode.
Clusters lose nothing of a text, and none of them is empty. -/

namespace Syntagma.Text

/-- What a character does at the borders of clusters. -/
inductive ClusterRole where
  | carriageReturn
  | lineFeed
  | control
  /-- A mark that joins the character before it. -/
  | mark
  /-- The zero width joiner. -/
  | joiner
  | spacing
  /-- A sign that joins the character behind it. -/
  | prepend
  /-- The consonant that a syllable of Hangul begins with. -/
  | lead
  | vowel
  /-- The consonant that a syllable of Hangul ends in. -/
  | trail
  /-- A syllable without a last consonant. -/
  | openSyllable
  | closedSyllable
  /-- A letter of a flag, which has two of them. -/
  | regional
  | pictograph
  /-- A consonant that can stand in a conjunct. -/
  | consonant
  | other
deriving DecidableEq, Repr

namespace ClusterRole

def ofHangulSyllable (n : Nat) : ClusterRole :=
  if (n - 0xAC00) % 28 = 0 then .openSyllable else .closedSyllable

/-- The role of a character beyond ASCII. -/
def ofForeign (c : Char) : ClusterRole :=
  let n := c.toNat
  if n = 0x200D then .joiner
  else if isJoining c || (0x1F3FB ≤ n && n ≤ 0x1F3FF) then .mark
  else if inRanges spacingRanges c then .spacing
  else if inRanges prependRanges c then .prepend
  else if inRanges consonantRanges c then .consonant
  else if inRanges pictographRanges c then .pictograph
  else if 0x1F1E6 ≤ n && n ≤ 0x1F1FF then .regional
  else if (0x1100 ≤ n && n ≤ 0x115F) || (0xA960 ≤ n && n ≤ 0xA97C) then .lead
  else if inRanges vowelRanges c then .vowel
  else if (0x11A8 ≤ n && n ≤ 0x11FF) || (0xD7CB ≤ n && n ≤ 0xD7FB) then .trail
  else if 0xAC00 ≤ n && n ≤ 0xD7A3 then ofHangulSyllable n
  else if inRanges controlRanges c then .control
  else .other

def ofChar (c : Char) : ClusterRole :=
  if c = '\r' then .carriageReturn
  else if c = '\n' then .lineFeed
  else if 0x20 ≤ c.toNat && c.toNat < 0x7F then .other
  else if c.toNat ≤ 0x7F then .control
  else ofForeign c

def isControl : ClusterRole → Bool
  | .carriageReturn | .lineFeed | .control => true
  | _ => false

/-- Whether two neighbours stay together whatever stands before them. -/
def joins : ClusterRole → ClusterRole → Bool
  | .carriageReturn, .lineFeed => true
  | a, b =>
    if a.isControl || b.isControl then false
    else match a, b with
      | .lead, .lead | .lead, .vowel | .lead, .openSyllable | .lead, .closedSyllable => true
      | .openSyllable, .vowel | .openSyllable, .trail | .vowel, .vowel | .vowel, .trail => true
      | .closedSyllable, .trail | .trail, .trail => true
      | _, .mark | _, .joiner | _, .spacing => true
      | .prepend, _ => true
      | _, _ => false

end ClusterRole

/-- How far a pictograph has come that may be joined with the next one. -/
inductive PictographState where
  | absent
  /-- A pictograph and marks. -/
  | begun
  /-- A joiner behind them. -/
  | joined
deriving DecidableEq, Repr

/-- How far a conjunct has come. -/
inductive ConjunctState where
  | absent
  | consonant
  /-- With a sign that links it to the next consonant. -/
  | linked
deriving DecidableEq, Repr

/-- What of the text before a place decides whether a cluster ends there. -/
structure ClusterContext where
  last : ClusterRole
  pictograph : PictographState
  conjunct : ConjunctState
  /-- Whether the flag letters in front are odd in number. -/
  halfFlag : Bool
deriving DecidableEq, Repr

namespace ClusterContext

/-- Nothing has been read. -/
def start : ClusterContext := ⟨.control, .absent, .absent, false⟩

/-- Whether the next character begins a new cluster. -/
def endsBefore (x : ClusterContext) (role : ClusterRole) : Bool :=
  !(x.last.joins role ||
    (role == .consonant && x.conjunct == .linked) ||
    (role == .pictograph && x.pictograph == .joined) ||
    (role == .regional && x.halfFlag))

def nextPictograph : PictographState → ClusterRole → PictographState
  | _, .pictograph => .begun
  | .begun, .mark => .begun
  | .begun, .joiner => .joined
  | _, _ => .absent

/-- Marks leave a conjunct as it is, but for the zero width non-joiner. -/
def nextConjunct (state : ConjunctState) (c : Char) (role : ClusterRole) : ConjunctState :=
  if role = .consonant then .consonant
  else if inRanges linkerRanges c then (if state = .absent then .absent else .linked)
  else if (role = .mark ∧ c.toNat ≠ 0x200C) ∨ role = .joiner then state
  else .absent

def next (x : ClusterContext) (c : Char) (role : ClusterRole) : ClusterContext where
  last := role
  pictograph := nextPictograph x.pictograph role
  conjunct := nextConjunct x.conjunct c role
  halfFlag := role == .regional && !x.halfFlag

end ClusterContext

/-- Puts a character in front of the first cluster. -/
def consFirst (c : Char) : List (List Char) → List (List Char)
  | [] => [[c]]
  | cluster :: rest => (c :: cluster) :: rest

/-- The clusters of a text; the first of them continues what has been read before. -/
def clustersFrom (x : ClusterContext) : List Char → List (List Char)
  | [] => [[]]
  | c :: rest =>
    let role := ClusterRole.ofChar c
    let clusters := consFirst c (clustersFrom (x.next c role) rest)
    if x.endsBefore role then [] :: clusters else clusters

def clusters (text : List Char) : List (List Char) :=
  (clustersFrom .start text).filter (fun cluster => !cluster.isEmpty)

theorem flatten_consFirst (c : Char) (l : List (List Char)) :
    (consFirst c l).flatten = c :: l.flatten := by
  cases l <;> rfl

theorem flatten_clustersFrom (x : ClusterContext) (text : List Char) :
    (clustersFrom x text).flatten = text := by
  induction text generalizing x with
  | nil => rfl
  | cons c rest ih =>
    simp only [clustersFrom]
    split <;> simp [flatten_consFirst, ih]

/-- The clusters of a text together are the text. -/
theorem flatten_clusters (text : List Char) : (clusters text).flatten = text := by
  rw [clusters, List.flatten_filter_not_isEmpty, flatten_clustersFrom]

theorem ne_nil_of_mem_clusters {text cluster : List Char} (h : cluster ∈ clusters text) :
    cluster ≠ [] := by
  simpa using (List.mem_filter.1 h).2

end Syntagma.Text
