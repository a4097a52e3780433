import Syntagma.Grammar.Basic
import Syntagma.Grammar.Branching
import Syntagma.Symbol.Coverage

/-! Compilation of a description: nodes are entered, token classes numbered, terminals compared
with the declared classes, left recursion removed or kept, alternatives factorized, and the
nodes put into their published order. -/

namespace Syntagma

namespace Draft

/-- Gives every defined token, in order of creation, the number of its class. -/
def assignTokenClasses : List Node → TokenClassMap → List Node × TokenClassMap
  | [], m => ([], m)
  | n :: rest, m =>
    match n.kind with
    | .medium data =>
      match data.token with
      | some tag =>
        let (id, m) := m.intern tag.className
        let (rest, m) := assignTokenClasses rest m
        ({ n with kind := .medium { data with token := some { tag with classId := id } } } :: rest,
          m)
      | none =>
        let (rest, m) := assignTokenClasses rest m
        (n :: rest, m)
    | _ =>
      let (rest, m) := assignTokenClasses rest m
      (n :: rest, m)

/-- The symbol classes as declared, in order of creation. -/
def declaredClasses (d : Draft) : List SymbolClass :=
  d.nodes.toList.filterMap (fun n => n.class?.map (fun data => ⟨data.key, data.symbols.toList⟩))

def listedTerminals (d : Draft) : List String :=
  (d.nodes.toList.filter (·.isListedTerminal)).map (·.name)

/-- Marks the terminals outside every declared class. -/
def markControl (unclassified : List String) (n : Node) : Node :=
  match n.kind with
  | .terminal data =>
    { n with kind := .terminal { data with isControl := unclassified.contains n.name } }
  | _ => n

/-! ### Publication -/

/-- The group in which a node is published. -/
def rank (n : Node) : Nat :=
  match n.kind with
  | .terminal data => if data.isListed then 0 else 5
  | .symbolClass _ => 2
  | .medium data => if data.token.isSome then 1 else if data.isSynthetic then 4 else 3
  | .factor _ => 4

/-- The nodes group by group, in order of creation inside a group. -/
def publishedOrder (d : Draft) : List Node :=
  (List.range 6).flatMap (fun r => d.nodes.toList.filter (fun n => rank n == r))

/-- The published number of each node, by its number in the draft. -/
def renumbering (d : Draft) : Array NodeId :=
  d.publishedOrder.zipIdx.foldl (fun m e => m.set! e.1.id e.2) (Array.replicate d.nodes.size 0)

def publish (d : Draft) (axiomId : NodeId) (classTable : ClassTable)
    (unclassifiedTerminals : List String) (hasLeftRecursion : Bool) : Grammar :=
  let renumbering := d.renumbering
  let newId := fun id => renumbering[id]?.getD 0
  let nodes := d.publishedOrder.map (·.mapIds newId)
  let defined := d.nodes.toList.filter (fun n => n.isNonterminal && !n.isSynthetic)
  let synthetic := (nodes.filter (·.isSynthetic)).mergeSort (fun a b => a.name ≤ b.name)
  .ofNodes nodes (newId axiomId) classTable unclassifiedTerminals hasLeftRecursion
    (defined.map (fun n => newId n.id) ++ synthetic.map (·.id))

/-- Factorizes the mediums: with left recursion removed first, or with their left recursion kept. -/
def factorizeAll (d : Draft) (options : GrammarOptions) : Except Fault Draft :=
  if options.removeLeftRecursion then do
    let d ← d.removeLeftRecursion d.mediumIds
    return d.mediumIds.foldl factorizeMedium d
  else d.mediumIds.foldlM factorizeKeeping d

/-- Whether some medium has a case that starts with itself. -/
def isLeftRecursive (d : Draft) : Bool := d.mediumIds.any (fun id => !(d.recursiveCases id).isEmpty)

end Draft

namespace Grammar

def compile (description : GrammarDescription) (options : GrammarOptions) :
    Except Fault Grammar := do
  let (axiomId, d) ← Draft.addDefinition options false description.axiomDefinition .empty
  if !d.nodes[axiomId]?.any (·.isMedium) then
    throw (.malformed (.axiomNotMedium description.axiomDefinition.name))
  let bare := ClassTable.ofNames description.unclassifiedName description.undefinedName
    description.whiteDelimiters
  let (nodes, tokenClasses) := Draft.assignTokenClasses d.nodes.toList bare.tokenClasses
  let coverage := Coverage.ofTerminals d.declaredClasses d.listedTerminals
  let table := coverage.register d.declaredClasses { bare with tokenClasses := tokenClasses }
  let generic := coverage.unclassified.filter
    (fun t => coverage.intersected.contains t || 1 < t.length)
  let d : Draft := ⟨(nodes.map (Draft.markControl coverage.unclassified)).toArray⟩
  let factorized ← d.factorizeAll options
  return factorized.publish axiomId table generic
    (!options.removeLeftRecursion && d.isLeftRecursive)

end Grammar

end Syntagma
