import Std.Data.HashMap
import ScalarGraph.Graph
import ScalarGraph.Keyed

/-! # Statistics of a graph

How many edges lead to and from the nodes, and how often each operator occurs.
-/
namespace ScalarGraph
variable {α : Type}

structure Statistics where
  nodes : Nat
  edges : Nat
  inputs : Nat
  fanIns : List Nat
  fanOuts : List Nat
  /-- How often each operator occurs, in the order of first occurrence. -/
  operations : List (Text × Nat)

namespace Statistics

def largest (ns : List Nat) : Nat := ns.foldl max 0

def mean (ns : List Nat) : Float :=
  if ns.isEmpty then 0.0 else Float.ofNat (ns.foldl (· + ·) 0) / Float.ofNat ns.length

def tally (ids : List Text) : Std.HashMap Text Nat :=
  ids.foldl (fun m id => m.insert id (m.getD id 0 + 1)) {}

def inputName : Text := (Op.input 0 () : Op Unit).shortName

/-- The operators that occur most often, of equally frequent ones the first to occur. -/
def mostCommon (s : Statistics) (n : Nat) : List (Text × Nat) :=
  (s.operations.mergeSort fun p q => q.2 ≤ p.2).take n

end Statistics

def Graph.statistics (g : Graph α) : Statistics :=
  let into := Statistics.tally (g.edges.map (·.target))
  let outOf := Statistics.tally (g.edges.map (·.source))
  let names := g.nodes.map fun p => p.2.op.shortName
  { nodes := g.size
    edges := g.edges.length
    inputs := names.count Statistics.inputName
    fanIns := g.nodes.map fun p => into.getD p.1 0
    fanOuts := g.nodes.map fun p => outOf.getD p.1 0
    operations := Keyed.counts names }

end ScalarGraph
