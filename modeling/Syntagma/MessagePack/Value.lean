/-! Values of the MessagePack format and the bytes that stand for them. Natural numbers and lengths
are written in the shortest form. -/

namespace Syntagma.MessagePack

inductive Value where
  | nil
  | bool (b : Bool)
  | nat (n : Nat)
  /-- A number in a form that has a sign, be it negative or not. -/
  | int (i : Int)
  /-- A number in floating point, as the four or eight bytes of its form. -/
  | float (bytes : List UInt8)
  | text (s : String)
  | binary (bytes : List UInt8)
  | array (items : List Value)
  | map (entries : List (Value × Value))
  /-- A value of a kind of the application's own. -/
  | extension (kind : UInt8) (bytes : List UInt8)
deriving Inhabited

/-! ### Nesting -/

mutual

/-- How many arrays, maps and extensions at most contain one another in a value. -/
def Value.height : Value → Nat
  | .array items => itemsHeight items + 1
  | .map entries => entriesHeight entries + 1
  | .extension _ _ => 1
  | _ => 0

def itemsHeight : List Value → Nat
  | [] => 0
  | v :: rest => max v.height (itemsHeight rest)

def entriesHeight : List (Value × Value) → Nat
  | [] => 0
  | (k, v) :: rest => max (max k.height v.height) (entriesHeight rest)

end

/-! ### Bytes -/

/-- The lowest `width` bytes of a number, the highest of them first. -/
def bigEndian : Nat → Nat → List UInt8
  | 0, _ => []
  | width + 1, n => bigEndian width (n / 256) ++ [UInt8.ofNat n]

/-- The number that bytes stand for, the highest first. -/
def ofBigEndian (bytes : List UInt8) : Nat := bytes.foldl (fun n b => n * 256 + b.toNat) 0

/-- What `width` bytes cannot hold any more. -/
def byteBound (width : Nat) : Nat := Nat.pow 256 width

theorem length_bigEndian (width n : Nat) : (bigEndian width n).length = width := by
  induction width generalizing n with
  | zero => rfl
  | succ width ih => simp [bigEndian, ih]

theorem byteBound_succ (width : Nat) : byteBound (width + 1) = byteBound width * 256 := rfl

theorem ofBigEndian_bigEndian {width n : Nat} (h : n < byteBound width) :
    ofBigEndian (bigEndian width n) = n := by
  induction width generalizing n with
  | zero =>
    rw [Nat.lt_one_iff.1 h]
    rfl
  | succ width ih =>
    have hd : n / 256 < byteBound width := by
      rw [Nat.div_lt_iff_lt_mul (by decide), ← byteBound_succ]
      exact h
    have := ih hd
    unfold ofBigEndian at *
    rw [bigEndian, List.foldl_append, this]
    simp only [List.foldl_cons, List.foldl_nil, UInt8.toNat_ofNat', Nat.reducePow]
    exact Nat.div_add_mod' n 256

def natBytes (n : Nat) : List UInt8 :=
  if n < 0x80 then bigEndian 1 n
  else if n < 0x100 then 0xCC :: bigEndian 1 n
  else if n < 0x10000 then 0xCD :: bigEndian 2 n
  else if n < 0x100000000 then 0xCE :: bigEndian 4 n
  else 0xCF :: bigEndian 8 n

/-- The bytes in front of a text of `n` bytes. -/
def textHead (n : Nat) : List UInt8 :=
  if n < 0x20 then bigEndian 1 (0xA0 + n)
  else if n < 0x100 then 0xD9 :: bigEndian 1 n
  else if n < 0x10000 then 0xDA :: bigEndian 2 n
  else 0xDB :: bigEndian 4 n

def textBytes (s : String) : List UInt8 :=
  let bytes := s.toUTF8.toList
  textHead bytes.length ++ bytes

/-- The number with its sign in eight bytes. -/
def intBytes (i : Int) : List UInt8 := 0xD3 :: bigEndian 8 (i % byteBound 8).toNat

def floatBytes (bytes : List UInt8) : List UInt8 :=
  (if bytes.length = 4 then 0xCA else 0xCB) :: bytes

/-- The length of `n` bytes in the first of three forms that holds it. -/
def lengthBytes (short medium long : UInt8) (n : Nat) : List UInt8 :=
  if n < 0x100 then short :: bigEndian 1 n
  else if n < 0x10000 then medium :: bigEndian 2 n
  else long :: bigEndian 4 n

def binaryBytes (bytes : List UInt8) : List UInt8 :=
  lengthBytes 0xC4 0xC5 0xC6 bytes.length ++ bytes

def extensionBytes (kind : UInt8) (bytes : List UInt8) : List UInt8 :=
  lengthBytes 0xC7 0xC8 0xC9 bytes.length ++ kind :: bytes

/-- The bytes in front of `n` items. -/
def arrayHead (n : Nat) : List UInt8 :=
  if n < 0x10 then bigEndian 1 (0x90 + n)
  else if n < 0x10000 then 0xDC :: bigEndian 2 n
  else 0xDD :: bigEndian 4 n

/-- The bytes in front of `n` entries. -/
def mapHead (n : Nat) : List UInt8 :=
  if n < 0x10 then bigEndian 1 (0x80 + n)
  else if n < 0x10000 then 0xDE :: bigEndian 2 n
  else 0xDF :: bigEndian 4 n

mutual

def Value.bytes : Value → List UInt8
  | .nil => [0xC0]
  | .bool b => [if b then 0xC3 else 0xC2]
  | .nat n => natBytes n
  | .int i => intBytes i
  | .float bytes => floatBytes bytes
  | .text s => textBytes s
  | .binary bytes => binaryBytes bytes
  | .array items => arrayHead items.length ++ itemBytes items
  | .map entries => mapHead entries.length ++ entryBytes entries
  | .extension kind bytes => extensionBytes kind bytes

def itemBytes : List Value → List UInt8
  | [] => []
  | v :: rest => v.bytes ++ itemBytes rest

def entryBytes : List (Value × Value) → List UInt8
  | [] => []
  | (k, v) :: rest => k.bytes ++ v.bytes ++ entryBytes rest

end

end Syntagma.MessagePack
