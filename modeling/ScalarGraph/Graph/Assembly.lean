import Std.Data.HashSet
import ScalarGraph.Graph.Draft
import ScalarGraph.Graph.Order

/-! # Assembling graphs

A draft becomes a graph when every identifier in it is defined, no position is
shared by two inputs, the edges have no cycle, every node has exactly the
operands that its slots ask for, and every operator is known. The checks are made
in this order, each over the whole draft.
-/
namespace ScalarGraph
variable {α : Type}

def firstViolation (vs : List (Option Violation)) : Except Violation Unit :=
  match vs.filterMap id with
  | [] => .ok ()
  | v :: _ => .error v

namespace Draft

def ids (d : Draft α) : List Text := d.nodes.map (·.1)

def checkEnds (d : Draft α) : Except Violation Unit :=
  let known := Std.HashSet.ofList d.ids
  firstViolation <| d.edges.flatMap fun e =>
    [e.source, e.target].map fun id =>
      if known.contains id then none else some (.undefinedEnd e.shown id)

def checkOutputs (d : Draft α) : Except Violation Unit :=
  let known := Std.HashSet.ofList d.ids
  firstViolation <| (d.primary.toList ++ d.secondary).map fun id =>
    if known.contains id then none else some (.undefinedOutput id)

def notePosition (seen : List (Nat × Text)) (p : Text × Literal α) :
    Except Violation (List (Nat × Text)) :=
  match p.2 with
  | .input i _ =>
    if i < 0 then .error (.negativeInput i)
    else
      match seen.lookup i.toNat with
      | some first => .error (.sharedInput i.toNat first p.1)
      | none => .ok (seen ++ [(i.toNat, p.1)])
  | _ => .ok seen

def positions (d : Draft α) : Except Violation (List (Nat × Text)) := d.nodes.foldlM notePosition []

def vectorLength (d : Draft α) (positions : List (Nat × Text)) : Int :=
  d.numInputs.getD (positions.foldl (fun m p => max m (p.1 + 1)) 0 : Nat)

/-- At most so many identifiers are named of those that lie on a cycle or behind one. -/
def stuckLimit : Nat := 10

def order (d : Draft α) : Except Fault (List Text) :=
  match Order.sort d.ids (d.edges.map fun e => (e.source, e.target)) with
  | .ok ids => .ok ids
  | .error .unlistedTarget => .error .noSuchKey
  | .error (.cycle stuck) => .error (.violation (.cycle ((Text.sorted stuck).take stuckLimit)))

/-- The operands that are named for each node, in the order of the edges. -/
abbrev Named := Std.HashMap Text (List (Slot.Key × DraftEdge))

def Named.add (m : Named) (e : DraftEdge) : Except Fault Named :=
  let sofar := m.getD e.target []
  match e.slot.key? with
  | none => .error .wrongType
  | some k =>
    if (sofar.lookup k).isSome then .error (.violation (.repeatedRole e.target e.slot.shown))
    else .ok (m.insert e.target (sofar ++ [(k, e)]))

def named (d : Draft α) : Except Fault Named := d.edges.foldlM Named.add {}

/-- The operands of a literal in the order of its slots, where exactly these are named. -/
def arranged? (l : Literal α) (named : List (Slot.Key × DraftEdge)) : Option (List Text) :=
  let wanted := l.roles named.length
  if wanted.length = named.length then
    wanted.mapM fun r => (named.lookup (.role r)).map DraftEdge.source
  else none

def arrange [Written α] (id : Text) (l : Literal α) (named : List (Slot.Key × DraftEdge)) :
    Except Violation (List Text) :=
  match arranged? l named with
  | some xs => .ok xs
  | none =>
    .error <| if l.isTerminal then .terminalWithOperands id
      else .operandRoles l.kind l.shown (Text.sorted (named.map (·.2.slot.plain)))
        ((l.roles named.length).map fun r => (Slot.role r).plain)

/-- The literals with the operands that fill their slots. -/
def rows [Written α] (d : Draft α) (named : Named) :
    Except Violation (List (Text × Literal α × List Text)) :=
  d.nodes.mapM fun p => return (p.1, p.2, ← arrange p.1 p.2 (named.getD p.1 []))

def nodesOf [Written α] (rows : List (Text × Literal α × List Text)) :
    Except Violation (List (Text × Node α Text)) :=
  rows.mapM fun r => return (r.1, ← r.2.1.node? r.2.2)

def check {β : Type} (r : Except Violation β) : Except Fault β := r.mapError .violation

/-- The positions of the inputs and the topological order, the nodes' operands being unchecked. -/
def frame (d : Draft α) : Except Fault (List (Nat × Text) × List Text) := do
  check d.checkEnds
  check d.checkOutputs
  let positions ← check d.positions
  return (positions, ← d.order)

def assemble [Written α] (d : Draft α) : Except Fault (Graph α) := do
  let (positions, order) ← d.frame
  let named ← d.named
  let rows ← check (d.rows named)
  let nodes ← check (nodesOf rows)
  return { nodes, edges := d.edges.filterMap DraftEdge.edge?, order, primary := d.primary,
           secondary := d.secondary, numInputs := d.vectorLength positions }

end Draft
end ScalarGraph
