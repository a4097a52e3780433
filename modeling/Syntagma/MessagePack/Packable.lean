import Syntagma.Dictionary
import Syntagma.MessagePack.Value

/-! Types with a form as MessagePack values. What reads a value is told how many levels of nesting
are left in it, for parts that are passed over may not be nested deeper. -/

namespace Syntagma.MessagePack

class Packable (α : Type) where
  pack : α → Value
  unpack? : Nat → Value → Option α

export Packable (pack unpack?)

instance : Packable Bool where
  pack := .bool
  unpack?
    | _, .bool b => some b
    | _, _ => none

/-- Whole numbers of 64 bits, in any form but floating point. -/
instance : Packable Nat where
  pack := .nat
  unpack?
    | _, .nat n => some n
    | _, .int i => if 0 ≤ i then some i.toNat else none
    | _, _ => none

instance : Packable UInt32 where
  pack n := .nat n.toNat
  unpack? room v :=
    (unpack? room v : Option Nat).bind
      (fun n => if n < UInt32.size then some (UInt32.ofNat n) else none)

/-- A text may also be kept as the bytes that stand for it. -/
instance : Packable String where
  pack := .text
  unpack?
    | _, .text s => some s
    | _, .binary bytes => String.fromUTF8? bytes.toByteArray
    | _, _ => none

/-- A character is a text of its own. -/
instance : Packable Char where
  pack c := .text (String.singleton c)
  unpack?
    | _, .text s =>
      match s.toList with
      | [c] => some c
      | _ => none
    | _, _ => none

instance {α : Type} [Packable α] : Packable (Option α) where
  pack
    | some a => pack a
    | none => .nil
  unpack?
    | _, .nil => some none
    | room, v => (unpack? room v).map some

/-- No bytes are no items. -/
instance {α : Type} [Packable α] : Packable (List α) where
  pack l := .array (l.map pack)
  unpack?
    | room, .array items => items.mapM (unpack? (room - 1))
    | _, .binary [] => some []
    | _, _ => none

instance {α : Type} [Packable α] : Packable (Array α) where
  pack a := pack a.toList
  unpack? room v := (unpack? room v : Option (List α)).map (·.toArray)

instance {α β : Type} [Packable α] [Packable β] : Packable (α × β) where
  pack p := .array [pack p.1, pack p.2]
  unpack?
    | room, .array [a, b] => do return (← unpack? (room - 1) a, ← unpack? (room - 1) b)
    | _, _ => none

def unpackPair? {κ υ : Type} [Packable κ] [Packable υ] (room : Nat) (e : Value × Value) :
    Option (κ × υ) := do
  return (← unpack? room e.1, ← unpack? room e.2)

instance {κ υ : Type} [Ord κ] [Std.TransOrd κ] [Std.LawfulEqOrd κ] [Packable κ] [Packable υ] :
    Packable (Dictionary κ υ) where
  pack d := .map (d.entries.map (fun e => (pack e.1, pack e.2)))
  unpack?
    | room, .map entries => (entries.mapM (unpackPair? (room - 1))).map .ofList
    | _, _ => none

/-! ### Names -/

/-- What a key says when one of some names is due: the name that it spells, as a text or in bytes,
or the one at the place that it counts to. No name if it spells or counts to none of them; other
values are no keys. -/
def nameOf? (names : List String) : Value → Option (Option String)
  | .text s => some (names.find? (· == s))
  | .binary bytes => some (names.find? (fun name => name.toUTF8 == bytes.toByteArray))
  | .nat n => some names[n]?
  | _ => none

/-- The name of a variant and its data, which stand alone in a map. -/
def variant? (names : List String) : Value → Option (String × Value)
  | .map [(key, v)] => do return (← (← nameOf? names key), v)
  | _ => none

/-! ### Records -/

/-- A record is a map from the names of its fields. -/
def record (fields : List (String × Value)) : Value :=
  .map (fields.map (fun f => (.text f.1, f.2)))

/-- The fields of a record by name, and the levels of nesting that are left in each. -/
structure Fields where
  room : Nat
  toList : List (String × Value)

namespace Fields

/-- An entry as a field, if it has one of the names. Another entry is passed over, unless it is
nested too deep. -/
def passOrName? (room : Nat) (names : List String) (e : Value × Value) :
    Option (Option (String × Value)) := do
  match ← nameOf? names e.1 with
  | some name => return some (name, e.2)
  | none => if e.2.height ≤ room then some none else none

/-- The fields with the given names: from a map, in which each may stand once and other keys are
passed over, or from an array with one item for each name. -/
def ofValue? (room : Nat) (names : List String) : Value → Option Fields
  | .map entries => do
    let fields := (← entries.mapM (passOrName? (room - 1) names)).filterMap id
    if (fields.map (·.1)).eraseDups.length = fields.length then some ⟨room - 1, fields⟩ else none
  | .array items =>
    if items.length = names.length then some ⟨room - 1, names.zip items⟩ else none
  | _ => none

def find? (f : Fields) (name : String) : Option Value :=
  (f.toList.find? (fun e => e.1 == name)).map (·.2)

variable {α : Type} [Packable α]

def get? (f : Fields) (name : String) : Option α := (f.find? name).bind (unpack? f.room)

/-- The value of a field that may be missing. -/
def getOption? (f : Fields) (name : String) : Option (Option α) :=
  match f.find? name with
  | some v => unpack? f.room v
  | none => some none

end Fields

end Syntagma.MessagePack
