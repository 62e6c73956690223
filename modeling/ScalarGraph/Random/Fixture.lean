import ScalarGraph.Graph.Document
import ScalarGraph.Graph.Extraction
import ScalarGraph.Graph.Sample
import ScalarGraph.GradientCheck
import ScalarGraph.Random.Expression

/-! # Fixtures

A fixture is the graph of a random expression with its outputs at the sample
point and the value of every node there.
-/
namespace ScalarGraph

structure Fixture where
  graph : Graph Float
  point : Array Float
  outputs : Outputs Float
  values : List (Text × Float)

namespace Fixture

/-- The graph of an expression that is built on a tape of its own. -/
def extract (expression : Build Float (Handle × List Handle)) : Build Float (Graph Float) :=
  Build.withFresh do
    let (h, _) ← expression
    makeGraph (some h) []

def expression (seed : Int) (r : Recipe) : Build Float (Handle × List Handle) := do
  return (← (Draw.expression Mixing.source r).run (Mixing.seeded seed)).1

/-- The fixture of an expression; the log names the seed. -/
def ofExpression (seed : Int) (expression : Build Float (Handle × List Handle)) :
    Build Float Fixture := do
  let graph ← extract expression
  let p ← graph.compile none
  let point ← Build.ofExcept (graph.samplePoint .ok)
  let outputs ← p.call Binary64.calculus point
  Build.note (.wrote graph.size graph.edges.length)
  let values ← p.nodeTable Binary64.calculus.rules point
  Build.note (.generated seed graph.size (outputs.primary.getD 0.0))
  return { graph, point, outputs, values }

def generate (seed : Int) (r : Recipe) : Build Float Fixture := ofExpression seed (expression seed r)

def document (f : Fixture) : Json :=
  Json.record
    [("gradient", .array (f.outputs.gradient.toList.map .real)),
     ("primary", (f.outputs.primary.map Json.real).getD .null),
     ("secondary", .object (f.values.map fun p => (p.1, .real p.2)))]

def outputsText (f : Fixture) : Text := f.document.indented 0 ++ Text.ofString "\n"

/-- Checks the gradient of a fixture's graph at the sample point. -/
def check (f : Fixture) : Build Float GradientCheck := do
  let p ← f.graph.compile none
  GradientCheck.run p [f.point.size] f.point (.absolute 1e-6)

end Fixture
end ScalarGraph
