import Syntagma.Dictionary
import Syntagma.Token

/-! Token tables: for each token class the distinct names of its tokens, numbered in order of
first appearance. -/

namespace Syntagma

/-- The distinct names of one token class in the order of their slots, and the slot of each name. -/
structure ClassEntries where
  names : List String
  slots : Dictionary String Nat
deriving DecidableEq, Inhabited

namespace ClassEntries

def empty : ClassEntries := ⟨[], .empty⟩

def slot? (t : ClassEntries) (name : String) : Option Nat := t.slots.get? name

def size (t : ClassEntries) : Nat := t.names.length

def isEmpty (t : ClassEntries) : Bool := t.names.isEmpty

/-- The slot of `name`, which is put at the end if it is new. -/
def intern (t : ClassEntries) (name : String) : Nat × ClassEntries :=
  match t.slot? name with
  | some slot => (slot, t)
  | none => (t.names.length, ⟨t.names ++ [name], t.slots.insert name t.names.length⟩)

end ClassEntries

/-- A token of the script with the slot of its name in the table of its class. -/
structure TokenEntry where
  name : String
  classId : TokenClassId
  slot : Nat
deriving DecidableEq, Inhabited

/-- The tables of all classes, and for each token of the script, in order, where it stands. -/
structure TokenTables where
  tables : Dictionary TokenClassId ClassEntries
  entries : List TokenEntry

namespace TokenTables

/-- Enters the tokens in turn; `tables` is what earlier tokens left. -/
def enter (tables : Dictionary TokenClassId ClassEntries) : List Token → TokenTables
  | [] => ⟨tables, []⟩
  | t :: rest =>
    let (slot, table) := ((tables.get? t.classId).getD .empty).intern t.name
    let tail := enter (tables.insert t.classId table) rest
    ⟨tail.tables, ⟨t.name, t.classId, slot⟩ :: tail.entries⟩

def ofTokens (tokens : List Token) : TokenTables := enter .empty tokens

def table? (t : TokenTables) (classId : TokenClassId) : Option ClassEntries :=
  t.tables.get? classId

/-- The classes that have a table, in the order of their numbers. -/
def classes (t : TokenTables) : List TokenClassId := t.tables.keys

end TokenTables

end Syntagma
