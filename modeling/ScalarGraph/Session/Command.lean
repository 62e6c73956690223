import ScalarGraph.Graph.Draft
import ScalarGraph.Session.Expression

/-! # Commands

The steps of a session, with expressions in the places of values.
-/
namespace ScalarGraph

/-- A literal whose numbers are still to be evaluated. -/
abbrev LiteralExpression := Literal Expression

/-- What a graph is built from. -/
structure Blueprint where
  nodes : List (Text × LiteralExpression)
  edges : List DraftEdge
  primary : Option Text
  secondary : List Text
  numInputs : Option Expression

structure Arguments where
  positional : List Expression := []
  named : List (Text × Expression) := []

inductive Command where
  | newTape
  | activate (tape : Int)
  | evaluate (e : Expression)
  /-- Evaluates `body` so many times, each time on the result before. -/
  | iterate (start body : Expression) (times : Nat)
  | same (a b : Expression)
  | push (l : LiteralExpression) (children : List Expression)
  | arena (brief : Bool)
  | extract (primary secondary : Expression)
  | build (b : Blueprint)
  | order (ids : List Text) (edges : List (Text × Text))
  | operands (g : Expression)
  | write (g : Expression)
  | read (document : Expression)
  | roundTrip (g : Expression)
  | store (g : Expression)
  | replay (g : Expression) (tape : Option Int)
  | statistics (g : Expression)
  | summary (g : Expression) (detailed : Bool)
  | listing (g : Expression) (limit : Option Expression)
  | configure (switches : Option (List (Text × Expression)))
  | compile (g : Expression) (switches : Option (List (Text × Expression)))
  | run (p xs : Expression)
  | nodeValues (p xs : Expression)
  /-- The outputs at several points of what is built on a tape of its own. -/
  | table (samples : List Expression) (body secondary : Expression) (points : List Expression)
  | derivative (body point : Expression)
  | gradient (body point : Expression)
  | random (seed : Int) (args : Arguments)
  | samplePoint (g : Expression)
  | checkGradient (p xs : Expression) (step : Option Expression)
  | fixture (args : Arguments) (raw : Bool)
  | commandLine (arguments : List Text) (raw : Bool)

end ScalarGraph
