import ScalarGraph.CommandLine
import ScalarGraph.Graph.Extraction
import ScalarGraph.Random.Fixture
import ScalarGraph.Session.Command

/-! # Arguments of commands

What the arguments of a command have to be. An argument of another kind is a fault.
-/
namespace ScalarGraph

namespace Value

def toGraph : Value → Except Fault (Graph Numeral)
  | graph g => .ok g
  | _ => .error .noSuchField

/-- A graph whose numbers are machine numbers. -/
def toMachineGraph (v : Value) : Except Fault (Graph Float) := do
  (← v.toGraph).convertM Numeral.machine

def toProgram : Value → Except Fault (Program Float)
  | program p => .ok p
  | _ => .error .wrongType

def toHandle : Value → Except Fault Handle
  | handle h => .ok h
  | v => .error (.notHandle v.typeText)

def toHandle? : Value → Except Fault (Option Handle)
  | nothing => .ok none
  | v => v.toHandle.map some

def toNumeral (w : Workspace Float) : Value → Numeral
  | text t => .text t
  | v => v.numeral?.getD (.other (v.shown w))

def toText : Value → Except Fault Text
  | text t => .ok t
  | _ => .error .wrongType

def toInteger : Value → Except Fault Int
  | int i => .ok i
  | bool b => .ok (if b then 1 else 0)
  | _ => .error .wrongType

/-- A number without its fraction; numerals of integers in texts are read. -/
def toWhole : Value → Except Fault Int
  | text t =>
    match Decimal.integer? t with
    | some i => .ok i
    | none => .error .badValue
  | real x | entry x =>
    match Binary64.toInt? (Binary64.trunc x) with
    | some i => .ok i
    | none => .error (if x.isNaN then .badValue else .outOfRange)
  | v => v.toInteger

/-- The point at which a gradient is asked for: a value whose items are numbers. -/
def toPoint (v : Value) : Except Fault (List Float) := do
  let (axes, xs) ← (Value.list (← v.items)).toArray
  if axes.length = 1 then return xs else throw .wrongType

/-- A value as an entry of an array of steps. -/
def toStepEntry : Value → StepEntry
  | handle h => .handle h
  | text _ => .unfit .wrongType
  | v =>
    match v.toFloat with
    | .ok x => .number x
    | .error f => .unfit f

/-- Texts and numbers, where there is a text, are an array of texts: that is no array of steps. -/
def toStep : Value → Step
  | nothing => .relative
  | v =>
    let isText : Value → Bool
      | text _ => true
      | _ => false
    match v.shape with
    | none => .unfit .badValue
    | some axes =>
      if v.leaves.any isText && v.leaves.all fun l => isText l || l.numeral?.isSome then
        .unfit .wrongType
      else .given axes (v.leaves.map toStepEntry)

end Value

def graphFrom (primary secondary : Value) : Build Float (Graph Float) := do
  let secondary ← Build.ofExcept secondary.items
  let p ← Build.ofExcept primary.toHandle?
  makeGraph p (← Build.ofExcept (secondary.mapM Value.toHandle))

namespace LiteralExpression

def number (s : Scope) (e : Expression) : Build Float Numeral := do
  let v ← e.eval s
  return v.toNumeral (← get)

def eval (s : Scope) : LiteralExpression → Build Float (Literal Numeral)
  | .const v => return .const (← number s v)
  | .input i v => return .input i (← number s v)
  | .unary n => return .unary n
  | .binary n => return .binary n
  | .select => return .select
  | .nary n => return .nary n
  | .debug l => return .debug l

end LiteralExpression

namespace Blueprint

/-- The graph that is built; of several nodes with one identifier the last counts. The length of
the input vector is read when there is a topological order. -/
def build (b : Blueprint) (s : Scope) : Build Float (Graph Numeral) := do
  let nodes ← b.nodes.mapM fun p => return (p.1, ← LiteralExpression.eval s p.2)
  let length ← (b.numInputs.mapM (Expression.eval s) : Build Float (Option Value))
  let d : Draft Numeral :=
    { nodes := Keyed.ofList nodes, edges := b.edges, primary := b.primary, secondary := b.secondary }
  Build.ofExcept do
    match length.map Value.toWhole with
    | some (.error f) => d.frame *> throw f
    | some (.ok n) => Draft.assemble { d with numInputs := some n }
    | none => d.assemble

end Blueprint

namespace Settings

def set (s : Settings) (name : Text) (on : Bool) : Except Fault Settings :=
  if name = Text.ofString "warn_non_finite" then .ok { s with warnNonFinite := on }
  else if name = Text.ofString "log_debug_nodes" then .ok { s with logDebugNodes := on }
  else if name = Text.ofString "skip_zero_adjoints" then .ok { s with skipZeroAdjoints := on }
  else .error .wrongType

/-- Whether a switch with this value is on. Graphs and programs are no values of switches. -/
def isOn : Value → Except Fault Bool
  | .graph _ | .program _ => .error .wrongType
  | v => .ok (v.isTrue.toOption.getD true)

/-- Settings with some switches set and all others as they are at first. -/
def ofGiven (given : List (Text × Value)) : Except Fault Settings :=
  given.foldlM (fun s p => do s.set p.1 (← isOn p.2)) {}

end Settings

def evalNamed (s : Scope) (es : List (Text × Expression)) : Build Float (List (Text × Value)) :=
  es.mapM fun p => return (p.1, ← p.2.eval s)

/-- The values of parameters by their names, from positional and named arguments. -/
def Arguments.bind (args : Arguments) (s : Scope) (positional named : List String) :
    Build Float (List (Text × Value)) := do
  let vs ← Expression.evalAll s args.positional
  let rest ← evalNamed s args.named
  let given := List.zip (positional.map Text.ofString) vs
  let allowed := ((positional.drop vs.length) ++ named).map Text.ofString
  if positional.length < vs.length || rest.any (fun p => !allowed.contains p.1) then
    throw .wrongType
  return given ++ rest

/-- The value of a parameter, or the value that it has where it is not given. -/
def parameter (given : List (Text × Value)) (name : String) (v : Value) : Value :=
  (given.lookup (Text.ofString name)).getD v

def Value.toWindow : Value → Window
  | .real x | .entry x => .real x
  | v => (v.toInteger.toOption.map fun i => .whole i.toNat).getD .unfit

/-- The recipe that arguments describe; `none` in the place of a count that is no integer. -/
structure RecipeArguments where
  inputs : Option Int
  operators : Option Int
  window : Window
  smooth : Except Fault Bool

namespace RecipeArguments

def ofGiven (given : List (Text × Value)) : RecipeArguments :=
  { inputs := (parameter given "n_inputs" (.int 4)).toInteger.toOption
    operators := (parameter given "n_ops" (.int 50)).toInteger.toOption
    window := (parameter given "window" (.int 8)).toWindow
    smooth := (parameter given "smooth" (.bool false)).isTrue }

def ofRequest (r : CommandLine.Request) : RecipeArguments :=
  { inputs := r.inputs, operators := r.operators, window := ({} : Recipe).window
    smooth := .ok r.smooth }

/-- The expression of the recipe. Where it is not said how many operators there are, only the
inputs are drawn. -/
def expression (a : RecipeArguments) (seed : Int) : Build Float (Handle × List Handle) := do
  let smooth ← Build.ofExcept a.smooth
  match a.inputs, a.operators with
  | some n, some m =>
    Fixture.expression seed
      { inputs := n.toNat, operators := m.toNat, window := a.window, smooth }
  | some n, none =>
    discard ((Draw.inputs Mixing.source n.toNat).run (Mixing.seeded seed))
    throw .wrongType
  | none, _ => throw .wrongType

def fixture (a : RecipeArguments) (seed : Int) : Build Float Fixture :=
  Fixture.ofExpression seed (a.expression seed)

end RecipeArguments
end ScalarGraph
