import ScalarGraph.Literal

/-! # Graphs

A graph stands on its own: named nodes with the identifiers of their operands,
the edges between them in the order in which they are listed, a topological
order, and the outputs. The primary output is the one that is differentiated.
-/
namespace ScalarGraph
variable {α β : Type}

structure Edge where
  source : Text
  target : Text
  role : Role
deriving DecidableEq

structure Graph (α : Type) where
  nodes : List (Text × Node α Text)
  edges : List Edge
  /-- The identifiers, operands before the nodes that use them. -/
  order : List Text
  primary : Option Text
  secondary : List Text
  /-- The length of the input vector that the graph was built against. -/
  numInputs : Int
deriving DecidableEq

namespace Graph

def size (g : Graph α) : Nat := g.nodes.length

def node? (g : Graph α) (id : Text) : Option (Node α Text) := g.nodes.lookup id

def operands (g : Graph α) : List (Text × List Text) := g.nodes.map fun p => (p.1, p.2.operands)

/-- The same graph over numbers of another type. -/
def convertM {m : Type → Type} [Monad m] (f : α → m β) (g : Graph α) : m (Graph β) := do
  let nodes ← g.nodes.mapM fun p => return (p.1, ← p.2.convertM f)
  return { g with nodes }

end Graph
end ScalarGraph
