import Syntagma.Dictionary
import Syntagma.Token

/-! Token class names and their numbers, looked up in either direction. -/

namespace Syntagma

/-- Pairs of a class name and its number, kept once by name and once by number. -/
structure TokenClassMap where
  byName : Dictionary String TokenClassId
  byId : Dictionary TokenClassId String
deriving DecidableEq, Inhabited

namespace TokenClassMap

def empty : TokenClassMap := ⟨.empty, .empty⟩

def idOf (m : TokenClassMap) (name : String) : Option TokenClassId := m.byName.get? name

def nameOf (m : TokenClassMap) (id : TokenClassId) : Option String := m.byId.get? id

def size (m : TokenClassMap) : Nat := m.byId.size

def isEmpty (m : TokenClassMap) : Bool := m.byId.isEmpty

/-- The pairs in the order of their numbers. -/
def toList (m : TokenClassMap) : List (TokenClassId × String) := m.byId.entries

/-- Forgets the pair that holds `name`. -/
def eraseName (m : TokenClassMap) (name : String) : TokenClassMap :=
  match m.idOf name with
  | some id => ⟨m.byName.erase name, m.byId.erase id⟩
  | none => m

/-- Forgets the pair that holds `id`. -/
def eraseId (m : TokenClassMap) (id : TokenClassId) : TokenClassMap :=
  match m.nameOf id with
  | some name => ⟨m.byName.erase name, m.byId.erase id⟩
  | none => m

/-- Pairs `name` with `id`; earlier pairs of either are forgotten. -/
def insert (m : TokenClassMap) (name : String) (id : TokenClassId) : TokenClassMap :=
  let m := (m.eraseName name).eraseId id
  ⟨m.byName.insert name id, m.byId.insert id name⟩

/-- One more than the greatest number in use, the reserved one aside. -/
def nextId (m : TokenClassMap) : TokenClassId :=
  (m.byId.keys.filter (fun id => !id.isUndefined)).foldl (fun n id => max n (id + 1)) 0

/-- The number of `name`, which gets the next number if it has none yet. -/
def intern (m : TokenClassMap) (name : String) : TokenClassId × TokenClassMap :=
  match m.idOf name with
  | some id => (id, m)
  | none => (m.nextId, m.insert name m.nextId)

end TokenClassMap

end Syntagma
