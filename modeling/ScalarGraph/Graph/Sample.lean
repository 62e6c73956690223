import ScalarGraph.Evaluation

/-! # Sample points

The input vector in which every input of a graph has its sample value.
-/
namespace ScalarGraph
variable {β : Type}

def setSample (read : β → Except Fault Float) (xs : Array Float) (n : Node β Text) :
    Except Fault (Array Float) :=
  match n with
  | .input i s => do
    let x ← read s
    if i < xs.size then return xs.setIfInBounds i x else throw .noSuchElement
  | _ => .ok xs

def Graph.samplePoint (g : Graph β) (read : β → Except Fault Float) :
    Except Fault (Array Float) := do
  if g.numInputs < 0 ∨ Program.lengthLimit ≤ g.numInputs.toNat then throw .badValue
  g.nodes.foldlM (fun xs p => setSample read xs p.2) (Array.replicate g.numInputs.toNat 0.0)

end ScalarGraph
