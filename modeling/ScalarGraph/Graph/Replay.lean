import ScalarGraph.Construct
import ScalarGraph.Graph

/-! # Replaying graphs

A graph is built again on a tape, node by node in its order. Constants that are
not settled in the graph are settled on the tape, and equal nodes are shared
there.
-/
namespace ScalarGraph
variable {α β : Type} [DecidableEq α] [Hashable α] [Written α]

/-- The tape's index for a node whose operands are on it. `read` makes the node's numbers
numbers of the tape. -/
def replayNode (R : Rules α) (read : β → Except Fault α) (k : Nat) :
    Node β Nat → Build α Nat
  | .const v => do
    let x ← Build.ofExcept (read v)
    Build.onTape k (·.const x)
  | .input i s => do
    let x ← Build.ofExcept (read s)
    Build.onTape? k (·.input i x)
  | n => do
    match n.operator? with
    | some n => Build.onTape k (·.settle R n)
    | none => throw .noSuchKey

/-- The indices of the nodes that are built already. -/
abbrev Replayed := Std.HashMap Text Nat

def Replayed.index (m : Replayed) (id : Text) : Build α Nat :=
  match m[id]? with
  | some i => return i
  | none => throw .noSuchKey

namespace Graph

def replayId (R : Rules α) (read : β → Except Fault α) (k : Nat)
    (nodes : Std.HashMap Text (Node β Text)) (m : Replayed) (id : Text) : Build α Replayed := do
  match nodes[id]? with
  | none => throw .noSuchKey
  | some n => return m.insert id (← replayNode R read k (← n.mapM m.index))

/-- Builds the graph on tape `k` and gives the handles of its outputs. -/
def replay (g : Graph β) (R : Rules α) (read : β → Except Fault α) (k : Nat) :
    Build α (Option Handle × List Handle) := do
  let m ← g.order.foldlM (replayId R read k (.ofList g.nodes)) {}
  let handle (id : Text) : Build α Handle := return ⟨k, ← m.index id⟩
  return (← g.primary.mapM handle, ← g.secondary.mapM handle)

end Graph
end ScalarGraph
