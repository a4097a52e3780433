import Syntagma.MessagePack.Value

/-! Reading a value from the front of a list of bytes. All forms of the format are read, also the
longer ones that are never written. -/

namespace Syntagma.MessagePack

/-- What is read from the front of some bytes, and the bytes behind it. -/
abbrev Parse (α : Type) := List UInt8 → Option (α × List UInt8)

/-- Cuts off `n` bytes. -/
def takeBytes : Nat → Parse (List UInt8)
  | 0, bytes => some ([], bytes)
  | n + 1, b :: rest => (takeBytes n rest).map (fun r => (b :: r.1, r.2))
  | _ + 1, [] => none

theorem takeBytes_append (a b : List UInt8) : takeBytes a.length (a ++ b) = some (a, b) := by
  induction a with
  | nil => rfl
  | cons x a ih => simp [takeBytes, ih]

def takeNat (width : Nat) : Parse Nat := fun bytes =>
  (takeBytes width bytes).map (fun r => (ofBigEndian r.1, r.2))

theorem takeNat_bigEndian {width n : Nat} (h : n < byteBound width) (rest : List UInt8) :
    takeNat width (bigEndian width n ++ rest) = some (n, rest) := by
  have := takeBytes_append (bigEndian width n) rest
  rw [length_bigEndian] at this
  simp [takeNat, this, ofBigEndian_bigEndian h]

/-- A length: known from the first byte, or the number in the next bytes. -/
inductive Size where
  | known (n : Nat)
  | next (width : Nat)
deriving DecidableEq, Repr

def takeSize : Size → Parse Nat
  | .known n => fun bytes => some (n, bytes)
  | .next width => takeNat width

/-- What the first byte of a value says about the bytes behind it. -/
inductive Head where
  | value (v : Value)
  | unsigned (width : Nat)
  | signed (width : Nat)
  | float (width : Nat)
  | text (size : Size)
  | binary (size : Size)
  | array (size : Size)
  | map (size : Size)
  | extension (size : Size)

def headOf (b : Nat) : Option Head :=
  if b < 0x80 then some (.value (.nat b))
  else if b < 0x90 then some (.map (.known (b - 0x80)))
  else if b < 0xA0 then some (.array (.known (b - 0x90)))
  else if b < 0xC0 then some (.text (.known (b - 0xA0)))
  else if b < 0xE0 then
    match b with
    | 0xC0 => some (.value .nil)
    | 0xC2 => some (.value (.bool false))
    | 0xC3 => some (.value (.bool true))
    | 0xC4 => some (.binary (.next 1))
    | 0xC5 => some (.binary (.next 2))
    | 0xC6 => some (.binary (.next 4))
    | 0xC7 => some (.extension (.next 1))
    | 0xC8 => some (.extension (.next 2))
    | 0xC9 => some (.extension (.next 4))
    | 0xCA => some (.float 4)
    | 0xCB => some (.float 8)
    | 0xCC => some (.unsigned 1)
    | 0xCD => some (.unsigned 2)
    | 0xCE => some (.unsigned 4)
    | 0xCF => some (.unsigned 8)
    | 0xD0 => some (.signed 1)
    | 0xD1 => some (.signed 2)
    | 0xD2 => some (.signed 4)
    | 0xD3 => some (.signed 8)
    | 0xD4 => some (.extension (.known 1))
    | 0xD5 => some (.extension (.known 2))
    | 0xD6 => some (.extension (.known 4))
    | 0xD7 => some (.extension (.known 8))
    | 0xD8 => some (.extension (.known 16))
    | 0xD9 => some (.text (.next 1))
    | 0xDA => some (.text (.next 2))
    | 0xDB => some (.text (.next 4))
    | 0xDC => some (.array (.next 2))
    | 0xDD => some (.array (.next 4))
    | 0xDE => some (.map (.next 2))
    | 0xDF => some (.map (.next 4))
    | _ => none
  else some (.value (.int (b - 0x100)))

/-- The number that bytes with a sign stand for: one of the upper half is negative. -/
def withSign (width n : Nat) : Int :=
  if 2 * n < byteBound width then n else n - byteBound width

/-- Bytes that are no text are taken as they are. -/
def textValue (bytes : List UInt8) : Value :=
  match String.fromUTF8? bytes.toByteArray with
  | some s => .text s
  | none => .binary bytes

def takeMany {α : Type} (one : Parse α) : Nat → Parse (List α)
  | 0, bytes => some ([], bytes)
  | n + 1, bytes => do
    let (a, rest) ← one bytes
    let (l, rest) ← takeMany one n rest
    return (a :: l, rest)

def takePair {α : Type} (one : Parse α) : Parse (α × α) := fun bytes => do
  let (a, rest) ← one bytes
  let (b, rest) ← one rest
  return ((a, b), rest)

/-- Reads a value whose parts are read by `inner`. -/
def takeWith (inner : Parse Value) : Parse Value
  | [] => none
  | b :: rest => do
    match ← headOf b.toNat with
    | .value v => return (v, rest)
    | .unsigned width =>
      let (n, rest) ← takeNat width rest
      return (.nat n, rest)
    | .signed width =>
      let (n, rest) ← takeNat width rest
      return (.int (withSign width n), rest)
    | .float width =>
      let (bytes, rest) ← takeBytes width rest
      return (.float bytes, rest)
    | .text size =>
      let (n, rest) ← takeSize size rest
      let (bytes, rest) ← takeBytes n rest
      return (textValue bytes, rest)
    | .binary size =>
      let (n, rest) ← takeSize size rest
      let (bytes, rest) ← takeBytes n rest
      return (.binary bytes, rest)
    | .array size =>
      let (n, rest) ← takeSize size rest
      let (items, rest) ← takeMany inner n rest
      return (.array items, rest)
    | .map size =>
      let (n, rest) ← takeSize size rest
      let (entries, rest) ← takeMany (takePair inner) n rest
      return (.map entries, rest)
    | .extension size =>
      let (n, rest) ← takeSize size rest
      let (kind, rest) ← takeNat 1 rest
      let (bytes, rest) ← takeBytes n rest
      return (.extension (UInt8.ofNat kind) bytes, rest)

/-- Reads a value of at most this height; an empty array or map may stand one level deeper. -/
def takeValue : Nat → Parse Value
  | 0 => takeWith (fun _ => none)
  | depth + 1 => takeWith (takeValue depth)

end Syntagma.MessagePack
