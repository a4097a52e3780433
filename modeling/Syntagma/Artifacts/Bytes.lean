import Syntagma.Artifacts
import Syntagma.MessagePack.Packable
import Syntagma.MessagePack.Reader

/-! Artifacts as bytes, so that a compiled grammar can be kept. -/

namespace Syntagma

open MessagePack

instance : Packable Trie where
  pack t := record [("cases", pack t.cases), ("is_interruptable", pack t.interruptable),
    ("recursion", pack t.recursion)]
  unpack? room v := do
    let f ← Fields.ofValue? room ["cases", "is_interruptable", "recursion"] v
    return ⟨← f.get? "cases", ← f.get? "is_interruptable", ← f.getOption? "recursion"⟩

instance : Packable TerminalData where
  pack d := record [("is_control", pack d.isControl), ("is_listed", pack d.isListed),
    ("token_class_id", pack d.classId), ("streamers", pack d.streamers),
    ("breakers", pack d.breakers), ("stream_max_count", pack d.streamMaxCount),
    ("operator_priority", pack d.operatorPriority)]
  unpack? room v := do
    let f ← Fields.ofValue? room ["is_control", "is_listed", "token_class_id", "streamers", "breakers",
      "stream_max_count", "operator_priority"] v
    return ⟨← f.get? "is_control", ← f.get? "is_listed", ← f.get? "token_class_id",
      ← f.get? "streamers", ← f.get? "breakers", ← f.getOption? "stream_max_count",
      ← f.getOption? "operator_priority"⟩

instance : Packable ClassData where
  pack d := record [("symbol_class", pack d.key), ("symbols", pack d.symbols)]
  unpack? room v := do
    let f ← Fields.ofValue? room ["symbol_class", "symbols"] v
    return ⟨← f.get? "symbol_class", ← f.get? "symbols"⟩

instance : Packable TokenTag where
  pack t := record [("token_class", pack t.className), ("token_class_id", pack t.classId)]
  unpack? room v := do
    let f ← Fields.ofValue? room ["token_class", "token_class_id"] v
    return ⟨← f.get? "token_class", ← f.get? "token_class_id"⟩

instance : Packable MediumData where
  pack d := record [("cases", pack d.cases), ("trie", pack d.trie), ("token", pack d.token),
    ("is_synthetic", pack d.isSynthetic)]
  unpack? room v := do
    let f ← Fields.ofValue? room ["cases", "trie", "token", "is_synthetic"] v
    return ⟨← f.get? "cases", ← f.get? "trie", ← f.getOption? "token", ← f.get? "is_synthetic"⟩

/-- The data of a node under the name of its kind. -/
instance : Packable NodeKind where
  pack
    | .terminal d => record [("Terminal", pack d)]
    | .symbolClass d => record [("Class", pack d)]
    | .medium d => record [("Medium", pack d)]
    | .factor t => record [("Factor", pack t)]
  unpack? room v := do
    match ← variant? ["Terminal", "Class", "Medium", "Factor"] v with
    | ("Terminal", v) => (unpack? room v).map .terminal
    | ("Class", v) => (unpack? room v).map .symbolClass
    | ("Medium", v) => (unpack? room v).map .medium
    | (_, v) => (unpack? room v).map .factor

instance : Packable Node where
  pack n := record [("id", pack n.id), ("name", pack n.name), ("exec_class", pack n.execClass),
    ("kind", pack n.kind)]
  unpack? room v := do
    let f ← Fields.ofValue? room ["id", "name", "exec_class", "kind"] v
    return ⟨← f.get? "id", ← f.get? "name", ← f.getOption? "exec_class", ← f.get? "kind"⟩

instance : Packable SymbolClass where
  pack c := record [("name", pack c.name), ("symbols", pack (String.ofList c.symbols))]
  unpack? room v := do
    let f ← Fields.ofValue? room ["name", "symbols"] v
    let symbols : String ← f.get? "symbols"
    return ⟨← f.get? "name", symbols.toList⟩

instance : Packable TokenClassMap where
  pack m := record [("by_name", pack m.byName), ("by_id", pack m.byId)]
  unpack? room v := do
    let f ← Fields.ofValue? room ["by_name", "by_id"] v
    return ⟨← f.get? "by_name", ← f.get? "by_id"⟩

instance : Packable ClassTable where
  pack t := record [
    ("symbol_classes", pack t.symbolClasses), ("token_classes", pack t.tokenClasses),
    ("white_delimiters", pack (String.ofList t.whiteDelimiters)),
    ("unclassified_token_class_name", pack t.unclassifiedName),
    ("undefined_token_class_name", pack t.undefinedName)]
  unpack? room v := do
    let f ← Fields.ofValue? room ["symbol_classes", "token_classes", "white_delimiters",
      "unclassified_token_class_name", "undefined_token_class_name"] v
    let white : String ← f.get? "white_delimiters"
    return ⟨← f.get? "symbol_classes", ← f.get? "token_classes", white.toList,
      ← f.get? "unclassified_token_class_name", ← f.get? "undefined_token_class_name"⟩

instance : Packable Grammar where
  pack g := record [("nodes", pack g.nodes), ("axiom", pack g.axiomId),
    ("class_table", pack g.classTable), ("unclassified_terminals", pack g.unclassifiedTerminals),
    ("has_left_recursion", pack g.hasLeftRecursion), ("definition_order", pack g.definitionOrder),
    ("terminal_index", pack g.terminalIndex), ("token_index", pack g.tokenIndex)]
  unpack? room v := do
    let f ← Fields.ofValue? room ["nodes", "axiom", "class_table", "unclassified_terminals",
      "has_left_recursion", "definition_order", "terminal_index", "token_index"] v
    return ⟨← f.get? "nodes", ← f.get? "axiom", ← f.get? "class_table",
      ← f.get? "unclassified_terminals", ← f.get? "has_left_recursion",
      ← f.get? "definition_order", ← f.get? "terminal_index", ← f.get? "token_index"⟩

instance : Packable AcceptToken where
  pack t := record [("name", pack t.name), ("class", pack t.className)]
  unpack? room v := do
    let f ← Fields.ofValue? room ["name", "class"] v
    return ⟨← f.get? "name", ← f.get? "class"⟩

instance : Packable FiniteState where
  pack s := record [("links", pack s.links), ("token", pack s.token)]
  unpack? room v := do
    let f ← Fields.ofValue? room ["links", "token"] v
    return ⟨← f.getOption? "links", ← f.getOption? "token"⟩

instance : Packable FiniteAutomaton where
  pack a := record [("states", pack a.states), ("start_state", pack a.start),
    ("class_table", pack a.classTable), ("narrowed", pack a.narrowed)]
  unpack? room v := do
    let f ← Fields.ofValue? room ["states", "start_state", "class_table", "narrowed"] v
    return ⟨← f.get? "states", ← f.get? "start_state", ← f.get? "class_table",
      ← f.get? "narrowed"⟩

instance : Packable PushdownLink where
  pack l := record [("dive_in", pack l.enter), ("factor_out", pack l.resume)]
  unpack? room v := do
    let f ← Fields.ofValue? room ["dive_in", "factor_out"] v
    return ⟨← f.getOption? "dive_in", ← f.getOption? "factor_out"⟩

instance : Packable PushdownState where
  pack s := record [("origin", pack s.origin), ("links", pack s.links), ("dives", pack s.dives),
    ("is_interruptable", pack s.interruptable), ("recursion", pack s.recursion)]
  unpack? room v := do
    let f ← Fields.ofValue? room ["origin", "links", "dives", "is_interruptable", "recursion"] v
    return ⟨← f.get? "origin", ← f.get? "links", ← f.get? "dives", ← f.get? "is_interruptable",
      ← f.getOption? "recursion"⟩

instance : Packable PushdownAutomaton where
  pack p := record [("states", pack p.states), ("start_state", pack p.start),
    ("token_names", pack p.tokenNames)]
  unpack? room v := do
    let f ← Fields.ofValue? room ["states", "start_state", "token_names"] v
    return ⟨← f.get? "states", ← f.get? "start_state", ← f.get? "token_names"⟩

instance : Packable Artifacts where
  pack a := record [("grammar", pack a.grammar), ("class_table", pack a.classTable),
    ("finite", pack a.finite), ("pushdown", pack a.pushdown)]
  unpack? room v := do
    let f ← Fields.ofValue? room ["grammar", "class_table", "finite", "pushdown"] v
    return ⟨← f.get? "grammar", ← f.get? "class_table", ← f.get? "finite", ← f.get? "pushdown"⟩

namespace Artifacts

def toBytes (a : Artifacts) : List UInt8 := (pack a).bytes

/-- How many levels of arrays, maps and extensions may contain one another in artifacts. The map
around the data of a node is none of them. -/
def levels : Nat := 1023

/-- The artifacts at the front of the bytes; what stands behind them does not matter. -/
def ofBytes (bytes : List UInt8) : Except Fault Artifacts :=
  match (takeValue (levels + 1) bytes).bind (fun r => unpack? levels r.1) with
  | some a => .ok a
  | none => .error (.of .undecodable)

end Artifacts

end Syntagma
