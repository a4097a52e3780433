import Syntagma.Artifacts.Bytes
import Syntagma.Proofs.Automaton.StrategyAgreement
import Syntagma.Proofs.Distinct
import Syntagma.Proofs.MessagePack.Packing
import Syntagma.Proofs.MessagePack.Reading

/-! Artifacts are got back from their bytes, and nothing less than all of these bytes is taken for
artifacts. So whoever reads one of several artifacts that stand in a row knows where it ends. -/

namespace Syntagma

open MessagePack

/-! ### Records -/

namespace MessagePack

theorem find?_beq_of_mem {names : List String} {name : String} (h : name ∈ names) :
    names.find? (· == name) = some name := by
  cases hf : names.find? (· == name) with
  | none => exact absurd (List.find?_eq_none.1 hf name h) (by simp)
  | some x => rw [eq_of_beq (List.find?_some (p := (· == name)) hf)]

/-- In a record of just the fields that are due every entry is a field. -/
theorem ofValue?_record {names : List String} {fields : List (String × Value)} (room : Nat)
    (hnames : fields.map (·.1) = names) (hn : names.Nodup) :
    Fields.ofValue? room names (record fields) = some ⟨room - 1, fields⟩ := by
  have hmap : (fields.map (fun f => (Value.text f.1, f.2))).mapM
      (Fields.passOrName? (room - 1) names) = some (fields.map some) :=
    mapM_map_eq_some fields (fun f hf => by
      have hmem : f.1 ∈ names := hnames ▸ List.mem_map_of_mem hf
      simp [Fields.passOrName?, nameOf?, find?_beq_of_mem hmem])
  have hsome : (fields.map some).filterMap id = fields := by simp
  have hdups : (fields.map (·.1)).eraseDups.length = fields.length := by
    rw [hnames, Distinct.eraseDups_of_nodup hn, ← hnames, List.length_map]
  simp only [record, Fields.ofValue?, hmap, Option.bind_eq_bind, Option.bind_some, hsome, hdups,
    if_true]

/-- A record is one level higher than its fields. -/
theorem height_record_le {fields : List (String × Value)} {n : Nat}
    (h : ∀ f ∈ fields, f.2.height ≤ n) : (record fields).height ≤ n + 1 := by
  have he : entriesHeight (fields.map (fun f => (Value.text f.1, f.2))) ≤ n :=
    entriesHeight_le (fun e he => by
      obtain ⟨f, hf, rfl⟩ := List.mem_map.1 he
      exact ⟨Nat.zero_le n, h f hf⟩)
  exact Nat.succ_le_succ he

theorem height_pack_le_of {α : Type} [Packable α] [Lawful α] {n : Nat} (a : α)
    (h : levels α ≤ n) : (pack a).height ≤ n :=
  Nat.le_trans (height_pack_le a) h

namespace Fields

variable {α : Type} [Packable α] {room : Nat} {name other : String} {rest : List (String × Value)}

@[simp] theorem get?_cons_self [Lawful α] (a : α) :
    (⟨room, (name, pack a) :: rest⟩ : Fields).get? name = some a := by
  simp [get?, find?, unpack_pack]

@[simp] theorem get?_cons_of_ne {v : Value} (h : other ≠ name) :
    (⟨room, (other, v) :: rest⟩ : Fields).get? name =
      ((⟨room, rest⟩ : Fields).get? name : Option α) := by
  simp [get?, find?, h]

@[simp] theorem getOption?_cons_self [Lawful α] [Present α] (a : Option α) :
    (⟨room, (name, pack a) :: rest⟩ : Fields).getOption? name = some a := by
  simp [getOption?, find?, unpack_pack]

@[simp] theorem getOption?_cons_of_ne {v : Value} (h : other ≠ name) :
    (⟨room, (other, v) :: rest⟩ : Fields).getOption? name =
      ((⟨room, rest⟩ : Fields).getOption? name : Option (Option α)) := by
  simp [getOption?, find?, h]

end Fields

/-- What reads the fields of a record is given those that the record was made of. -/
theorem unpack_record {α : Type} {names : List String} {fields : List (String × Value)}
    {read : Fields → Option α} {a : α} (room : Nat) (hnames : fields.map (·.1) = names)
    (hn : names.Nodup) (h : read ⟨room - 1, fields⟩ = some a) :
    (Fields.ofValue? room names (record fields)).bind read = some a := by
  rw [ofValue?_record room hnames hn]
  exact h

theorem variant?_record {names : List String} {name : String} (v : Value) (h : name ∈ names) :
    variant? names (record [(name, v)]) = some (name, v) := by
  simp [variant?, record, nameOf?, find?_beq_of_mem h]

end MessagePack

/-! ### The parts of artifacts -/

instance : Lawful Trie where
  levels := 3
  height_pack_le t := by
    apply height_record_le
    simp only [List.forall_mem_cons]
    refine ⟨?_, ?_, ?_, nofun⟩ <;> exact height_pack_le_of _ (by decide)
  unpack_pack room t := by
    refine unpack_record room ?_ ?_ ?_
    · rfl
    · decide
    · simp

instance : Lawful TerminalData where
  levels := 2
  height_pack_le t := by
    apply height_record_le
    simp only [List.forall_mem_cons]
    refine ⟨?_, ?_, ?_, ?_, ?_, ?_, ?_, nofun⟩ <;> exact height_pack_le_of _ (by decide)
  unpack_pack room t := by
    refine unpack_record room ?_ ?_ ?_
    · rfl
    · decide
    · simp

instance : Lawful ClassData where
  levels := 1
  height_pack_le c := by
    apply height_record_le
    simp only [List.forall_mem_cons]
    refine ⟨?_, ?_, nofun⟩ <;> exact height_pack_le_of _ (by decide)
  unpack_pack room c := by
    refine unpack_record room ?_ ?_ ?_
    · rfl
    · decide
    · simp

instance : Lawful TokenTag where
  levels := 1
  height_pack_le t := by
    apply height_record_le
    simp only [List.forall_mem_cons]
    refine ⟨?_, ?_, nofun⟩ <;> exact height_pack_le_of _ (by decide)
  unpack_pack room t := by
    refine unpack_record room ?_ ?_ ?_
    · rfl
    · decide
    · simp

instance : Present TokenTag := ⟨nofun⟩

instance : Lawful MediumData where
  levels := 4
  height_pack_le m := by
    apply height_record_le
    simp only [List.forall_mem_cons]
    refine ⟨?_, ?_, ?_, ?_, nofun⟩ <;> exact height_pack_le_of _ (by decide)
  unpack_pack room m := by
    refine unpack_record room ?_ ?_ ?_
    · rfl
    · decide
    · simp

instance : Lawful NodeKind where
  levels := 5
  height_pack_le k := by
    cases k with
    | terminal d => exact height_record_le (by simp [height_pack_le_of d (n := 4) (by decide)])
    | symbolClass d => exact height_record_le (by simp [height_pack_le_of d (n := 4) (by decide)])
    | medium d => exact height_record_le (by simp [height_pack_le_of d (n := 4) (by decide)])
    | factor t => exact height_record_le (by simp [height_pack_le_of t (n := 4) (by decide)])
  unpack_pack room k := by
    cases k with
    | terminal d =>
      show (variant? _ (record [("Terminal", pack d)])).bind _ = _
      rw [variant?_record _ (by decide)]
      simp [unpack_pack]
    | symbolClass d =>
      show (variant? _ (record [("Class", pack d)])).bind _ = _
      rw [variant?_record _ (by decide)]
      simp [unpack_pack]
    | medium d =>
      show (variant? _ (record [("Medium", pack d)])).bind _ = _
      rw [variant?_record _ (by decide)]
      simp [unpack_pack]
    | factor t =>
      show (variant? _ (record [("Factor", pack t)])).bind _ = _
      rw [variant?_record _ (by decide)]
      simp [unpack_pack]

instance : Lawful Node where
  levels := 6
  height_pack_le n := by
    apply height_record_le
    simp only [List.forall_mem_cons]
    refine ⟨?_, ?_, ?_, ?_, nofun⟩ <;> exact height_pack_le_of _ (by decide)
  unpack_pack room n := by
    refine unpack_record room ?_ ?_ ?_
    · rfl
    · decide
    · simp

instance : Lawful SymbolClass where
  levels := 1
  height_pack_le s := by
    apply height_record_le
    simp only [List.forall_mem_cons]
    refine ⟨?_, ?_, nofun⟩ <;> exact height_pack_le_of _ (by decide)
  unpack_pack room s := by
    refine unpack_record room ?_ ?_ ?_
    · rfl
    · decide
    · simp

instance : Lawful TokenClassMap where
  levels := 2
  height_pack_le t := by
    apply height_record_le
    simp only [List.forall_mem_cons]
    refine ⟨?_, ?_, nofun⟩ <;> exact height_pack_le_of _ (by decide)
  unpack_pack room t := by
    refine unpack_record room ?_ ?_ ?_
    · rfl
    · decide
    · simp

instance : Lawful ClassTable where
  levels := 3
  height_pack_le c := by
    apply height_record_le
    simp only [List.forall_mem_cons]
    refine ⟨?_, ?_, ?_, ?_, ?_, nofun⟩ <;> exact height_pack_le_of _ (by decide)
  unpack_pack room c := by
    refine unpack_record room ?_ ?_ ?_
    · rfl
    · decide
    · simp

instance : Lawful Grammar where
  levels := 8
  height_pack_le g := by
    apply height_record_le
    simp only [List.forall_mem_cons]
    refine ⟨?_, ?_, ?_, ?_, ?_, ?_, ?_, ?_, nofun⟩ <;> exact height_pack_le_of _ (by decide)
  unpack_pack room g := by
    refine unpack_record room ?_ ?_ ?_
    · rfl
    · decide
    · simp

instance : Lawful AcceptToken where
  levels := 1
  height_pack_le a := by
    apply height_record_le
    simp only [List.forall_mem_cons]
    refine ⟨?_, ?_, nofun⟩ <;> exact height_pack_le_of _ (by decide)
  unpack_pack room a := by
    refine unpack_record room ?_ ?_ ?_
    · rfl
    · decide
    · simp

instance : Present AcceptToken := ⟨nofun⟩

instance : Lawful FiniteState where
  levels := 2
  height_pack_le f := by
    apply height_record_le
    simp only [List.forall_mem_cons]
    refine ⟨?_, ?_, nofun⟩ <;> exact height_pack_le_of _ (by decide)
  unpack_pack room f := by
    refine unpack_record room ?_ ?_ ?_
    · rfl
    · decide
    · simp

instance : Lawful FiniteAutomaton where
  levels := 4
  height_pack_le f := by
    apply height_record_le
    simp only [List.forall_mem_cons]
    refine ⟨?_, ?_, ?_, ?_, nofun⟩ <;> exact height_pack_le_of _ (by decide)
  unpack_pack room f := by
    refine unpack_record room ?_ ?_ ?_
    · rfl
    · decide
    · simp

instance : Lawful PushdownLink where
  levels := 1
  height_pack_le p := by
    apply height_record_le
    simp only [List.forall_mem_cons]
    refine ⟨?_, ?_, nofun⟩ <;> exact height_pack_le_of _ (by decide)
  unpack_pack room p := by
    refine unpack_record room ?_ ?_ ?_
    · rfl
    · decide
    · simp

instance : Lawful PushdownState where
  levels := 4
  height_pack_le p := by
    apply height_record_le
    simp only [List.forall_mem_cons]
    refine ⟨?_, ?_, ?_, ?_, ?_, nofun⟩ <;> exact height_pack_le_of _ (by decide)
  unpack_pack room p := by
    refine unpack_record room ?_ ?_ ?_
    · rfl
    · decide
    · simp

instance : Lawful PushdownAutomaton where
  levels := 6
  height_pack_le p := by
    apply height_record_le
    simp only [List.forall_mem_cons]
    refine ⟨?_, ?_, ?_, nofun⟩ <;> exact height_pack_le_of _ (by decide)
  unpack_pack room p := by
    refine unpack_record room ?_ ?_ ?_
    · rfl
    · decide
    · simp

instance : Lawful Artifacts where
  levels := 9
  height_pack_le a := by
    apply height_record_le
    simp only [List.forall_mem_cons]
    refine ⟨?_, ?_, ?_, ?_, nofun⟩ <;> exact height_pack_le_of _ (by decide)
  unpack_pack room a := by
    refine unpack_record room ?_ ?_ ?_
    · rfl
    · decide
    · simp

/-! ### Artifacts -/

namespace Artifacts

/-- How deep artifacts are nested is below the bound for what is read, whatever their grammar. -/
theorem unpack_takeValue {a : Artifacts} (hf : (pack a).fits) (rest : List UInt8) :
    (takeValue (levels + 1) (a.toBytes ++ rest)).bind (fun r => unpack? levels r.1) = some a := by
  have hheight : (pack a).height ≤ levels + 1 := height_pack_le_of a (by decide)
  rw [toBytes, takeValue_bytes (pack a) hf hheight rest, Option.bind_some, unpack_pack]

/-- The bytes of artifacts are a code without prefixes, as long as every length is below 2 ^ 32 and
every number below 2 ^ 64: what follows the bytes does not change what is read from them, and from
less than all of them nothing is read. -/
theorem ofBytes_toBytes_append_and_prefix (a : Artifacts) (hf : (pack a).fits) :
    (∀ rest, ofBytes (a.toBytes ++ rest) = .ok a) ∧
      ∀ front, front <+: a.toBytes → front ≠ a.toBytes →
        ofBytes front = .error (.of .undecodable) := by
  constructor
  · intro rest
    simp only [ofBytes, unpack_takeValue hf rest]
  · intro front hp hne
    have hheight : (pack a).height ≤ levels + 1 := height_pack_le_of a (by decide)
    simp only [ofBytes, takeValue_eq_none hf hheight hp hne, Option.bind_none]

/-- The artifacts of sums are such artifacts. -/
theorem ofBytes_toBytes_sums : ∃ a, (Grammar.compile sums {}).bind ofGrammar = .ok a ∧
    (∀ rest, ofBytes (a.toBytes ++ rest) = .ok a) ∧
      ∀ front, front <+: a.toBytes → front ≠ a.toBytes →
        ofBytes front = .error (.of .undecodable) := by
  have hfits : ((Grammar.compile sums {}).bind ofGrammar).map (fun a => (pack a).fits) =
    .ok true := by decide +kernel
  cases ha : (Grammar.compile sums {}).bind ofGrammar with
  | error fault => rw [ha] at hfits; cases hfits
  | ok a =>
    rw [ha] at hfits
    injection hfits with hfits
    exact ⟨a, rfl, ofBytes_toBytes_append_and_prefix a hfits⟩

end Artifacts

end Syntagma
