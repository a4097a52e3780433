import Syntagma.Text.Cluster

/-! Backspaces in a line of text that nobody has edited yet. -/

namespace Syntagma.Text

/-- A line while its backspaces are being applied: the characters kept, the latest first, and the
sizes of the clusters that can be taken back. -/
structure TypedLine where
  kept : List Char
  sizes : List Nat
deriving DecidableEq, Inhabited, Repr

/-- The bytes that stand for some characters. -/
def byteCount : List Char → Nat
  | [] => 0
  | c :: cs => c.utf8Size + byteCount cs

/-- Drops characters from the front as long as they fit into `n` bytes. -/
def dropBytes (n : Nat) : List Char → List Char
  | [] => []
  | c :: rest => if c.utf8Size ≤ n then dropBytes (n - c.utf8Size) rest else c :: rest

namespace TypedLine

/-- A backspace takes back the last cluster. Its size is known up to multiples of 256. -/
def step (d : TypedLine) (cluster : List Char) : TypedLine :=
  if cluster = ['\x08'] then
    match d.sizes with
    | [] => d
    | n :: sizes => ⟨dropBytes n d.kept, sizes⟩
  else ⟨cluster.reverse ++ d.kept, byteCount cluster % 256 :: d.sizes⟩

end TypedLine

/-- The line that is left when every backspace has taken back the cluster before it. -/
def withoutBackspaces (line : List Char) : List Char :=
  ((clusters line).foldl TypedLine.step ⟨[], []⟩).kept.reverse

end Syntagma.Text
