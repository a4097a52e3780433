import Syntagma.Grammar.Basic

/-! Written forms of a grammar. The plain form lists every alternative, `<A>::=a<B>|^`; the
factorized form shows the tries, `<S>::=a(b(c(d)|^))`, with kept left recursion in braces. -/

namespace Syntagma.Grammar

def caseText (g : Grammar) (case : List NodeId) : String :=
  if case.isEmpty then "^" else String.join (case.map g.textOf)

def alternatives (g : Grammar) (n : Node) : Option (List String) :=
  match n.kind with
  | .symbolClass data => some (data.symbols.toList.map String.singleton)
  | .medium data => some (data.cases.map g.caseText)
  | _ => none

/-- Every definition with its alternatives, one to a line. -/
def text (g : Grammar) : String :=
  String.join (g.definitions.filterMap (fun n =>
    (g.alternatives n).map (fun alternatives =>
      n.text ++ "::=" ++ "|".intercalate alternatives ++ "\n")))

/-- A trie with what its continuations hold, followed for at most `depth` levels. -/
def trieText (g : Grammar) : Nat → Trie → String
  | 0, _ => ""
  | depth + 1, trie =>
    let cases := trie.cases.map (fun e =>
      match e.2.bind g.trie? with
      | some next => g.textOf e.1 ++ "(" ++ g.trieText depth next ++ ")"
      | none => g.textOf e.1)
    let alternatives := cases ++ (if trie.interruptable then ["^"] else [])
    let loops := match trie.recursion.bind g.trie? with
      | some loop => loop.cases.filterMap (fun e =>
          (g.trie? e.1).map (fun tail => "\x7b" ++ g.trieText depth tail ++ "\x7d"))
      | none => []
    "|".intercalate alternatives ++ String.join loops

/-- The trie of every medium, one to a line. No continuation passes the same node twice, so
the number of nodes bounds the depth. -/
def factorizedText (g : Grammar) : String :=
  String.join (g.definitions.filterMap (fun n =>
    n.medium?.map (fun data => n.text ++ "::=" ++ g.trieText (g.nodes.size + 1) data.trie ++ "\n")))

end Syntagma.Grammar
