import ScalarGraph.Graph.Statistics
import ScalarGraph.Random.Fixture
import ScalarGraph.Value

/-! # Results of commands

How what a command finds is given as a value.
-/
namespace ScalarGraph.Value

def ofGraph (g : Graph Float) : Value := graph (Id.run (g.convertM fun x => pure (.real x)))

def ofSwitches (given : List (Text × Value)) : Value :=
  record (({} : Settings).fields.map fun f =>
    (f.1, (given.lookup (Text.ofString f.1)).getD (.bool f.2)))

def ofCounts (ps : List (Text × Nat)) : Value := table (ps.map fun p => (p.1, int p.2))

def ofReals (ps : List (Text × Float)) : Value := table (ps.map fun p => (p.1, real p.2))

def ofStatistics (s : Statistics) : Value :=
  record [("nodes", .int s.nodes), ("edges", .int s.edges), ("inputs", .int s.inputs),
    ("max_fan_in", .int (Statistics.largest s.fanIns)),
    ("avg_fan_in", .real (Statistics.mean s.fanIns)),
    ("max_fan_out", .int (Statistics.largest s.fanOuts)),
    ("avg_fan_out", .real (Statistics.mean s.fanOuts)),
    ("operations", ofCounts s.operations)]

def ofHandle? (h : Option Handle) : Value := (h.map handle).getD .nothing

def ofCheck (c : GradientCheck) : Value :=
  record [("analytic", .vector c.analytic), ("numeric", .vector c.numeric),
    ("max_error", .real c.maxError)]

/-- A fixture as values, or as the texts of its files with what is printed. -/
def ofFixture (f : Fixture) (raw : Bool) (printed : Text) : Value :=
  if raw then .ids [f.graph.document, f.outputsText, printed]
  else
    .list [.text f.graph.document,
      record [("gradient", .reals f.outputs.gradient.toList), ("primary", ofReal? f.outputs.primary),
        ("secondary", ofReals f.values)]]

end ScalarGraph.Value
