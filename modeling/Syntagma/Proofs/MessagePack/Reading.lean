import Syntagma.MessagePack.Reader

/-! Reading back what was written. The bytes of a value are read as that value, whatever stands
behind them, as long as its numbers and lengths have a form and it is not nested too deep. No reader
looks behind the value it reads, so what it finds in some bytes it also finds in more of them. -/

namespace Syntagma.MessagePack

/-! ### Values that have a form -/

mutual

/-- Whether every number and every length in a value can be written in full. -/
def Value.fits : Value → Bool
  | .nil => true
  | .bool _ => true
  | .nat n => n < byteBound 8
  | .int i => -byteBound 8 ≤ 2 * i && 2 * i < byteBound 8
  | .float bytes => bytes.length == 4 || bytes.length == 8
  | .text s => s.utf8ByteSize < byteBound 4
  | .binary bytes => bytes.length < byteBound 4
  | .array items => items.length < byteBound 4 && itemsFit items
  | .map entries => entries.length < byteBound 4 && entriesFit entries
  | .extension _ bytes => bytes.length < byteBound 4

def itemsFit : List Value → Bool
  | [] => true
  | v :: rest => v.fits && itemsFit rest

def entriesFit : List (Value × Value) → Bool
  | [] => true
  | (k, v) :: rest => k.fits && v.fits && entriesFit rest

end

/-! ### Text as bytes -/

theorem toList_loop_eq (b : ByteArray) (i : Nat) (r : List UInt8) :
    ByteArray.toList.loop b i r = r.reverse ++ b.data.toList.drop i := by
  fun_induction ByteArray.toList.loop b i r with
  | case1 i r h ih =>
    have hi : i < b.data.toList.length := by simpa using h
    have hget : b.get! i = b.data.toList[i] := by
      simp only [ByteArray.get!, Array.getElem_toList]
      exact getElem!_pos b.data i (by simpa using hi)
    rw [ih, List.drop_eq_getElem_cons hi, List.reverse_cons, List.append_assoc, hget]
    rfl
  | case2 i r h =>
    have hi : b.data.toList.length ≤ i := by simpa using h
    rw [List.drop_eq_nil_of_le hi, List.append_nil]

theorem toList_eq_data (b : ByteArray) : b.toList = b.data.toList := toList_loop_eq b 0 []

theorem toByteArray_toList (b : ByteArray) : b.toList.toByteArray = b := by
  apply ByteArray.ext
  rw [List.data_toByteArray, toList_eq_data, Array.toArray_toList]

theorem length_toUTF8 (s : String) : s.toUTF8.toList.length = s.utf8ByteSize := by
  rw [toList_eq_data]
  rfl

theorem textValue_toUTF8 (s : String) : textValue s.toUTF8.toList = .text s := by
  have h : String.fromUTF8? s.toUTF8 = some s := dif_pos s.isValidUTF8
  rw [textValue, toByteArray_toList, h]

/-! ### The head of a value -/

/-- Reads what stands behind a head. -/
def Head.take (inner : Parse Value) : Head → Parse Value
  | .value v, rest => some (v, rest)
  | .unsigned width, rest => (takeNat width rest).map (fun r => (.nat r.1, r.2))
  | .signed width, rest => (takeNat width rest).map (fun r => (.int (withSign width r.1), r.2))
  | .float width, rest => (takeBytes width rest).map (fun r => (.float r.1, r.2))
  | .text size, rest => (takeSize size rest).bind (fun r =>
      (takeBytes r.1 r.2).map (fun r => (textValue r.1, r.2)))
  | .binary size, rest => (takeSize size rest).bind (fun r =>
      (takeBytes r.1 r.2).map (fun r => (.binary r.1, r.2)))
  | .array size, rest => (takeSize size rest).bind (fun r =>
      (takeMany inner r.1 r.2).map (fun r => (.array r.1, r.2)))
  | .map size, rest => (takeSize size rest).bind (fun r =>
      (takeMany (takePair inner) r.1 r.2).map (fun r => (.map r.1, r.2)))
  | .extension size, rest => (takeSize size rest).bind (fun r =>
      (takeNat 1 r.2).bind (fun k =>
        (takeBytes r.1 k.2).map (fun r => (.extension (UInt8.ofNat k.1) r.1, r.2))))

theorem takeWith_cons (inner : Parse Value) (b : UInt8) (rest : List UInt8) :
    takeWith inner (b :: rest) = (headOf b.toNat).bind (fun head => head.take inner rest) := by
  simp only [takeWith, bind, pure]
  congr 1
  funext head
  cases head <;> simp [Head.take, Option.map_eq_bind, Function.comp_def]

/-- A head that is written as one byte. -/
theorem takeWith_of_small {inner : Parse Value} {n : Nat} {head : Head} (hn : n < 256)
    (hh : headOf n = some head) (rest : List UInt8) :
    takeWith inner (bigEndian 1 n ++ rest) = head.take inner rest := by
  show takeWith inner (UInt8.ofNat n :: rest) = _
  rw [takeWith_cons, UInt8.toNat_ofNat_of_lt' hn, hh, Option.bind_some]

theorem takeWith_of_head {inner : Parse Value} {b : UInt8} (head : Head)
    (hh : headOf b.toNat = some head) (more rest : List UInt8) :
    takeWith inner (b :: more ++ rest) = head.take inner (more ++ rest) := by
  rw [List.cons_append, takeWith_cons, hh, Option.bind_some]

theorem headOf_map {n : Nat} (h : n < 0x10) : headOf (0x80 + n) = some (.map (.known n)) := by
  simp [headOf, show ¬0x80 + n < 0x80 by omega, show 0x80 + n < 0x90 by omega]

theorem headOf_array {n : Nat} (h : n < 0x10) : headOf (0x90 + n) = some (.array (.known n)) := by
  simp [headOf, show ¬0x90 + n < 0x80 by omega, show ¬0x90 + n < 0x90 by omega,
    show 0x90 + n < 0xA0 by omega]

theorem headOf_text {n : Nat} (h : n < 0x20) : headOf (0xA0 + n) = some (.text (.known n)) := by
  simp [headOf, show ¬0xA0 + n < 0x80 by omega, show ¬0xA0 + n < 0x90 by omega,
    show ¬0xA0 + n < 0xA0 by omega, show 0xA0 + n < 0xC0 by omega]

/-! ### Values without parts -/

section Flat

variable {inner : Parse Value} {n : Nat} (rest : List UInt8)

theorem takeWith_natBytes (h : n < byteBound 8) :
    takeWith inner (natBytes n ++ rest) = some (.nat n, rest) := by
  have hwide (b : UInt8) (width : Nat) (hb : headOf b.toNat = some (.unsigned width))
      (hn : n < byteBound width) :
      takeWith inner (b :: bigEndian width n ++ rest) = some (.nat n, rest) := by
    rw [takeWith_of_head _ hb, Head.take, takeNat_bigEndian hn]
    rfl
  unfold natBytes
  split
  next hn =>
    have hh : headOf n = some (.value (.nat n)) := by simp [headOf, hn]
    rw [takeWith_of_small (by omega) hh]
    rfl
  · split
    next hn => exact hwide _ 1 rfl hn
    · split
      next hn => exact hwide _ 2 rfl hn
      · split
        next hn => exact hwide _ 4 rfl hn
        · exact hwide _ 8 rfl h

theorem byteBound_eight : byteBound 8 = 0x10000000000000000 := rfl

theorem withSign_of_fits {i : Int} (hlow : -byteBound 8 ≤ 2 * i) (hhigh : 2 * i < byteBound 8) :
    withSign 8 (i % byteBound 8).toNat = i := by
  unfold withSign
  rw [byteBound_eight] at *
  split <;> omega

theorem takeWith_intBytes {i : Int} (hlow : -byteBound 8 ≤ 2 * i) (hhigh : 2 * i < byteBound 8) :
    takeWith inner (intBytes i ++ rest) = some (.int i, rest) := by
  have hlt : (i % byteBound 8).toNat < byteBound 8 := by
    rw [byteBound_eight]
    omega
  rw [intBytes, takeWith_of_head (.signed 8) rfl, Head.take,
    takeNat_bigEndian hlt, Option.map_some, withSign_of_fits hlow hhigh]

theorem takeWith_floatBytes {bytes : List UInt8} (h : bytes.length = 4 ∨ bytes.length = 8) :
    takeWith inner (floatBytes bytes ++ rest) = some (.float bytes, rest) := by
  have hwide (b : UInt8) (hb : headOf b.toNat = some (.float bytes.length)) :
      takeWith inner (b :: bytes ++ rest) = some (.float bytes, rest) := by
    rw [takeWith_of_head _ hb, Head.take, takeBytes_append]
    rfl
  unfold floatBytes
  rcases h with h | h
  · exact hwide _ (by rw [if_pos h, h]; rfl)
  · exact hwide _ (by rw [if_neg (by omega), h]; rfl)

theorem takeWith_textBytes {s : String} (h : s.utf8ByteSize < byteBound 4) :
    takeWith inner (textBytes s ++ rest) = some (.text s, rest) := by
  have hbody (size : Size) (more : List UInt8)
      (hs : takeSize size more = some (s.toUTF8.toList.length, s.toUTF8.toList ++ rest)) :
      (Head.text size).take inner more = some (.text s, rest) := by
    rw [Head.take, hs, Option.bind_some, takeBytes_append, Option.map_some, textValue_toUTF8]
  have hwide (b : UInt8) (width : Nat) (hb : headOf b.toNat = some (.text (.next width)))
      (hn : s.toUTF8.toList.length < byteBound width) :
      takeWith inner (b :: bigEndian width s.toUTF8.toList.length ++ (s.toUTF8.toList ++ rest)) =
        some (.text s, rest) := by
    rw [takeWith_of_head _ hb]
    exact hbody _ _ (takeNat_bigEndian hn _)
  unfold textBytes textHead
  rw [List.append_assoc]
  split
  next hn =>
    rw [takeWith_of_small (by omega) (headOf_text hn)]
    exact hbody _ _ rfl
  · split
    next hn => exact hwide _ 1 rfl hn
    · split
      next hn => exact hwide _ 2 rfl hn
      · exact hwide _ 4 rfl (by rwa [length_toUTF8])

/-- A length in the first of three forms that holds it, behind heads for these forms. -/
theorem takeWith_lengthBytes (head : Size → Head) {short medium long : UInt8}
    (hshort : headOf short.toNat = some (head (.next 1)))
    (hmedium : headOf medium.toNat = some (head (.next 2)))
    (hlong : headOf long.toNat = some (head (.next 4))) (h : n < byteBound 4) {v : Value}
    {more : List UInt8} (hbody : ∀ width, n < byteBound width →
      (head (.next width)).take inner (bigEndian width n ++ (more ++ rest)) = some (v, rest)) :
    takeWith inner (lengthBytes short medium long n ++ (more ++ rest)) = some (v, rest) := by
  unfold lengthBytes
  split
  next hn =>
    rw [takeWith_of_head _ hshort]
    exact hbody 1 hn
  · split
    next hn =>
      rw [takeWith_of_head _ hmedium]
      exact hbody 2 hn
    · rw [takeWith_of_head _ hlong]
      exact hbody 4 h

theorem takeWith_binaryBytes {bytes : List UInt8} (h : bytes.length < byteBound 4) :
    takeWith inner (binaryBytes bytes ++ rest) = some (.binary bytes, rest) := by
  rw [binaryBytes, List.append_assoc]
  refine takeWith_lengthBytes rest .binary rfl rfl rfl h (fun width hn => ?_)
  rw [Head.take, takeSize, takeNat_bigEndian hn, Option.bind_some, takeBytes_append]
  rfl

theorem takeWith_extensionBytes {kind : UInt8} {bytes : List UInt8}
    (h : bytes.length < byteBound 4) :
    takeWith inner (extensionBytes kind bytes ++ rest) = some (.extension kind bytes, rest) := by
  rw [extensionBytes, List.append_assoc]
  refine takeWith_lengthBytes rest .extension rfl rfl rfl h (fun width hn => ?_)
  have hkind : takeNat 1 (kind :: bytes ++ rest) = some (kind.toNat, bytes ++ rest) := by
    simp [takeNat, takeBytes, ofBigEndian]
  rw [Head.take, takeSize, takeNat_bigEndian hn, Option.bind_some, hkind, Option.bind_some,
    takeBytes_append, Option.map_some, UInt8.ofNat_toNat]

end Flat

/-! ### Values with parts -/

section Parts

variable {inner : Parse Value} (rest : List UInt8)

theorem takeWith_arrayHead {n : Nat} {items : List Value} {more : List UInt8}
    (h : n < byteBound 4) (hitems : takeMany inner n (more ++ rest) = some (items, rest)) :
    takeWith inner (arrayHead n ++ (more ++ rest)) = some (.array items, rest) := by
  have hbody (size : Size) (front : List UInt8)
      (hs : takeSize size (front ++ (more ++ rest)) = some (n, more ++ rest)) :
      (Head.array size).take inner (front ++ (more ++ rest)) = some (.array items, rest) := by
    rw [Head.take, hs, Option.bind_some, hitems, Option.map_some]
  unfold arrayHead
  split
  next hn =>
    rw [takeWith_of_small (by omega) (headOf_array hn)]
    exact hbody _ [] rfl
  · split
    next hn =>
      rw [takeWith_of_head (.array (.next 2)) rfl]
      exact hbody _ _ (takeNat_bigEndian hn _)
    · rw [takeWith_of_head (.array (.next 4)) rfl]
      exact hbody _ _ (takeNat_bigEndian h _)

theorem takeWith_mapHead {n : Nat} {entries : List (Value × Value)} {more : List UInt8}
    (h : n < byteBound 4)
    (hentries : takeMany (takePair inner) n (more ++ rest) = some (entries, rest)) :
    takeWith inner (mapHead n ++ (more ++ rest)) = some (.map entries, rest) := by
  have hbody (size : Size) (front : List UInt8)
      (hs : takeSize size (front ++ (more ++ rest)) = some (n, more ++ rest)) :
      (Head.map size).take inner (front ++ (more ++ rest)) = some (.map entries, rest) := by
    rw [Head.take, hs, Option.bind_some, hentries, Option.map_some]
  unfold mapHead
  split
  next hn =>
    rw [takeWith_of_small (by omega) (headOf_map hn)]
    exact hbody _ [] rfl
  · split
    next hn =>
      rw [takeWith_of_head (.map (.next 2)) rfl]
      exact hbody _ _ (takeNat_bigEndian hn _)
    · rw [takeWith_of_head (.map (.next 4)) rfl]
      exact hbody _ _ (takeNat_bigEndian h _)

end Parts

/-- What reads the parts of a value that is nested at most so deep. -/
def partsOf : Nat → Parse Value
  | 0 => fun _ => none
  | depth + 1 => takeValue depth

theorem takeValue_eq (depth : Nat) : takeValue depth = takeWith (partsOf depth) := by
  cases depth <;> rfl

mutual

/-- What was written for a value is read as this value, whatever stands behind it. -/
theorem takeValue_bytes (v : Value) {depth : Nat} (hf : v.fits) (hd : v.height ≤ depth)
    (rest : List UInt8) : takeValue depth (v.bytes ++ rest) = some (v, rest) := by
  rw [takeValue_eq]
  match v with
  | .nil => exact takeWith_of_head (b := 0xC0) (.value .nil) rfl [] rest
  | .bool false => exact takeWith_of_head (b := 0xC2) (.value (.bool false)) rfl [] rest
  | .bool true => exact takeWith_of_head (b := 0xC3) (.value (.bool true)) rfl [] rest
  | .nat n =>
    simp only [Value.fits, decide_eq_true_eq] at hf
    exact takeWith_natBytes rest hf
  | .int i =>
    simp only [Value.fits, Bool.and_eq_true, decide_eq_true_eq] at hf
    exact takeWith_intBytes rest hf.1 hf.2
  | .float bytes =>
    simp only [Value.fits, Bool.or_eq_true, beq_iff_eq] at hf
    exact takeWith_floatBytes rest hf
  | .text s =>
    simp only [Value.fits, decide_eq_true_eq] at hf
    exact takeWith_textBytes rest hf
  | .binary bytes =>
    simp only [Value.fits, decide_eq_true_eq] at hf
    exact takeWith_binaryBytes rest hf
  | .extension kind bytes =>
    simp only [Value.fits, decide_eq_true_eq] at hf
    exact takeWith_extensionBytes rest hf
  | .array items =>
    simp only [Value.fits, Bool.and_eq_true, decide_eq_true_eq] at hf
    obtain ⟨inner, rfl⟩ : ∃ inner, depth = inner + 1 := Nat.exists_eq_add_one.2 (by
      simp only [Value.height] at hd
      omega)
    rw [Value.bytes, List.append_assoc]
    refine takeWith_arrayHead rest hf.1 (takeMany_itemBytes items hf.2 ?_ rest)
    simpa [Value.height] using hd
  | .map entries =>
    simp only [Value.fits, Bool.and_eq_true, decide_eq_true_eq] at hf
    obtain ⟨inner, rfl⟩ : ∃ inner, depth = inner + 1 := Nat.exists_eq_add_one.2 (by
      simp only [Value.height] at hd
      omega)
    rw [Value.bytes, List.append_assoc]
    refine takeWith_mapHead rest hf.1 (takeMany_entryBytes entries hf.2 ?_ rest)
    simpa [Value.height] using hd

theorem takeMany_itemBytes (items : List Value) {depth : Nat} (hf : itemsFit items)
    (hd : itemsHeight items ≤ depth) (rest : List UInt8) :
    takeMany (takeValue depth) items.length (itemBytes items ++ rest) = some (items, rest) := by
  match items with
  | [] => rfl
  | v :: items =>
    simp only [itemsFit, Bool.and_eq_true] at hf
    simp only [itemsHeight, Nat.max_le] at hd
    have hfirst := takeValue_bytes v hf.1 hd.1 (itemBytes items ++ rest)
    have hothers := takeMany_itemBytes items hf.2 hd.2 rest
    simp [itemBytes, takeMany, hfirst, hothers]

theorem takeMany_entryBytes (entries : List (Value × Value)) {depth : Nat}
    (hf : entriesFit entries) (hd : entriesHeight entries ≤ depth) (rest : List UInt8) :
    takeMany (takePair (takeValue depth)) entries.length (entryBytes entries ++ rest) =
      some (entries, rest) := by
  match entries with
  | [] => rfl
  | (k, v) :: entries =>
    simp only [entriesFit, Bool.and_eq_true] at hf
    simp only [entriesHeight, Nat.max_le] at hd
    have hkey := takeValue_bytes k hf.1.1 hd.1.1 (v.bytes ++ (entryBytes entries ++ rest))
    have hvalue := takeValue_bytes v hf.1.2 hd.1.2 (entryBytes entries ++ rest)
    have hothers := takeMany_entryBytes entries hf.2 hd.2 rest
    simp [entryBytes, takeMany, takePair, hkey, hvalue, hothers]

end

/-! ### More bytes behind -/

/-- What is read from some bytes is read from more of them as well, and the others are left. -/
def Parse.Extends {α : Type} (p : Parse α) : Prop :=
  ∀ bytes a rest, p bytes = some (a, rest) → ∀ more, p (bytes ++ more) = some (a, rest ++ more)

section Extends

variable {α β : Type}

theorem extends_bind {p : Parse α} {q : α → Parse β} (hp : p.Extends) (hq : ∀ a, (q a).Extends) :
    Parse.Extends (fun bytes => (p bytes).bind (fun r => q r.1 r.2)) := by
  intro bytes b rest h more
  obtain ⟨⟨a, front⟩, ha, hb⟩ := Option.bind_eq_some_iff.1 h
  show (p (bytes ++ more)).bind _ = _
  rw [hp bytes a front ha more]
  exact hq a front b rest hb more

theorem extends_map {p : Parse α} (hp : p.Extends) (f : α → β) :
    Parse.Extends (fun bytes => (p bytes).map (fun r => (f r.1, r.2))) := by
  intro bytes b rest h more
  obtain ⟨⟨a, front⟩, ha, hb⟩ := Option.map_eq_some_iff.1 h
  show (p (bytes ++ more)).map _ = _
  rw [hp bytes a front ha more]
  cases hb
  rfl

theorem extends_pure (a : α) : Parse.Extends (fun bytes => some (a, bytes)) := by
  intro bytes b rest h more
  cases h
  rfl

theorem extends_takeBytes (n : Nat) : (takeBytes n).Extends := by
  intro bytes
  induction n generalizing bytes with
  | zero => exact extends_pure [] bytes
  | succ n ih =>
    intro a rest h more
    cases bytes with
    | nil => cases h
    | cons b bytes =>
      obtain ⟨⟨front, rest'⟩, hr, he⟩ := Option.map_eq_some_iff.1 h
      cases he
      show (takeBytes n (bytes ++ more)).map _ = _
      rw [ih bytes front rest' hr more]
      rfl

theorem extends_takeNat (width : Nat) : (takeNat width).Extends :=
  extends_map (extends_takeBytes width) ofBigEndian

theorem extends_takeSize (size : Size) : (takeSize size).Extends := by
  cases size with
  | known n => exact extends_pure n
  | next width => exact extends_takeNat width

theorem extends_takeMany {one : Parse α} (h : one.Extends) (n : Nat) : (takeMany one n).Extends := by
  induction n with
  | zero => exact extends_pure []
  | succ n ih => exact extends_bind h (fun a => extends_bind ih (fun l => extends_pure (a :: l)))

theorem extends_takePair {one : Parse α} (h : one.Extends) : (takePair one).Extends :=
  extends_bind h (fun a => extends_bind h (fun b => extends_pure (a, b)))

variable {inner : Parse Value}

theorem extends_take (h : inner.Extends) (head : Head) : Parse.Extends (head.take inner) := by
  cases head with
  | value v => exact extends_pure v
  | unsigned width => exact extends_map (extends_takeNat width) _
  | signed width => exact extends_map (extends_takeNat width) (fun n => Value.int (withSign width n))
  | float width => exact extends_map (extends_takeBytes width) _
  | text size =>
    exact extends_bind (extends_takeSize size) (fun n => extends_map (extends_takeBytes n) _)
  | binary size =>
    exact extends_bind (extends_takeSize size) (fun n => extends_map (extends_takeBytes n) _)
  | array size =>
    exact extends_bind (extends_takeSize size) (fun n => extends_map (extends_takeMany h n) _)
  | map size =>
    exact extends_bind (extends_takeSize size)
      (fun n => extends_map (extends_takeMany (extends_takePair h) n) _)
  | extension size =>
    exact extends_bind (extends_takeSize size) (fun n => extends_bind (extends_takeNat 1)
      (fun kind => extends_map (extends_takeBytes n) (Value.extension (UInt8.ofNat kind))))

theorem extends_takeWith (h : inner.Extends) : (takeWith inner).Extends := by
  intro bytes v rest hv more
  cases bytes with
  | nil => cases hv
  | cons b bytes =>
    rw [takeWith_cons] at hv
    obtain ⟨head, hh, hv⟩ := Option.bind_eq_some_iff.1 hv
    rw [List.cons_append, takeWith_cons, hh]
    exact extends_take h head bytes v rest hv more

theorem extends_takeValue (depth : Nat) : (takeValue depth).Extends := by
  induction depth with
  | zero => exact extends_takeWith (fun _ _ _ h => nomatch h)
  | succ depth ih => exact extends_takeWith ih

end Extends

/-- No value is read from a part of the bytes that were written for one. -/
theorem takeValue_eq_none {v : Value} {depth : Nat} (hf : v.fits) (hd : v.height ≤ depth)
    {front : List UInt8} (hp : front <+: v.bytes) (hne : front ≠ v.bytes) :
    takeValue depth front = none := by
  obtain ⟨behind, hb⟩ := hp
  cases hr : takeValue depth front with
  | none => rfl
  | some r =>
    obtain ⟨w, rest⟩ := r
    have hwhole := extends_takeValue depth front w rest hr behind
    have hwritten := takeValue_bytes v hf hd []
    rw [List.append_nil, ← hb, hwhole] at hwritten
    have hnil : rest ++ behind = [] := (Prod.mk.inj (Option.some.inj hwritten)).2
    rw [(List.append_eq_nil_iff.1 hnil).2, List.append_nil] at hb
    exact absurd hb hne

end Syntagma.MessagePack
