import ScalarGraph.CommandLine
import ScalarGraph.Graph.Replay
import ScalarGraph.Graph.Report
import ScalarGraph.Session.Argument
import ScalarGraph.Session.Result

/-! # Execution of commands

Each command gives a value or fails, and works on the tapes of the session's
workspace. Its arguments are evaluated from left to right.
-/
namespace ScalarGraph.Command
open Value

def iterateBody (s : Scope) (body : Expression) : Nat → Value → Build Float Value
  | 0, v => return v
  | n + 1, v => do iterateBody s body n (← body.eval { s with argument := some v })

/-- The number of a tape, which may be counted from the last one. -/
def tapeAt (k : Int) : Build Float Nat := do
  match place? (← get).tapes.size k with
  | some k => return k
  | none => throw .noSuchElement

def graphAt (s : Scope) (g : Expression) : Build Float (Graph Numeral) := do
  Build.ofExcept (← g.eval s).toGraph

def machineGraphAt (s : Scope) (g : Expression) : Build Float (Graph Float) := do
  Build.ofExcept (← g.eval s).toMachineGraph

def topologicalOrder (ids : List Text) (edges : List (Text × Text)) : Except Fault (List Text) :=
  Draft.order { nodes := ids.map fun id => (id, (.select : Literal Float)),
                edges := edges.map fun e => ⟨e.1, e.2, .role .only⟩ }

def printListing (g : Graph Numeral) (limit : Value) : Except Fault Text := do
  if g.nodes.isEmpty then return Graph.printed (g.listing 0)
  else return Graph.printed (g.listing (← limit.toInteger))

def tableInputs (s : Scope) : Nat → List Expression → Build Float (List Value)
  | _, [] => return []
  | i, e :: es => do
    let v ← e.eval s
    let h ← Function.makeInput (.int i) v
    return h :: (← tableInputs s (i + 1) es)

/-- The program of a function that is built on a tape of its own. -/
def tableProgram (s : Scope) (samples : List Expression) (body secondary : Expression) :
    Build Float (Program Float) :=
  Build.withFresh do
    let xs ← tableInputs s 0 samples
    let s := { s with argument := some (.list xs) }
    let secondary ← secondary.eval s
    let primary ← body.eval s
    (← graphFrom primary secondary).compile none

def callAt (p : Program Float) (v : Value) : Build Float (Outputs Float) := do
  p.call Binary64.calculus (← Build.ofExcept v.toVector)

def runCommandLine (arguments : List Text) (raw : Bool) : Build Float Value := do
  match CommandLine.read arguments with
  | .error r => throw (.exit r.code)
  | .ok r =>
    match r.seed with
    | none => throw .wrongType
    | some seed =>
      let f ← (RecipeArguments.ofRequest r).fixture seed
      let printed ← if r.check then GradientCheck.line <$> f.check else pure []
      return ofFixture f raw printed

def exec (s : Scope) : Command → Build Float Value
  | newTape => do return .int (← Build.newTape)
  | activate k => do
    let active ← tapeAt k
    modify fun w => { w with active }
    return .int k
  | evaluate e => e.eval s
  | iterate start body n => do iterateBody s body n (← start.eval s)
  | same a b => do
    let v ← a.eval s
    let w ← b.eval s
    return .bool (← Build.ofExcept (if a.isSame s b then v.equalsItself else a.equal s v b w))
  | push l children => do
    let l ← LiteralExpression.eval s l
    let children ← children.mapM fun e => do Build.ofExcept (← e.eval s).toWhole
    let k := (← get).active
    return .handle ⟨k, ← Build.onTape? k (·.push l children)⟩
  | arena brief => do
    let w ← get
    let t := w.tape w.active
    return .arena (if brief then none else some t.nodes.toList) t.numInputs
  | extract primary secondary => do
    let p ← primary.eval s
    return ofGraph (← graphFrom p (← secondary.eval s))
  | build b => do return .graph (← b.build s)
  | order ids edges => do return .ids (← Build.ofExcept (topologicalOrder ids edges))
  | operands g => do
    return .table ((← graphAt s g).operands.map fun p => (p.1, .ids p.2))
  | write g => do return .text (← machineGraphAt s g).document
  | read e => do
    let t ← Build.ofExcept (← e.eval s).toText
    return ofGraph (← Build.ofExcept (Document.read t))
  | roundTrip g => do
    let t := (← machineGraphAt s g).document
    let h ← Build.ofExcept (Document.read t)
    return .list [.bool (h.document == t), ofGraph h]
  | store g => do
    let g ← machineGraphAt s g
    Build.note (.wrote g.size g.edges.length)
    let h ← Build.ofExcept (Document.read g.document)
    Build.note (.loaded h.size h.edges.length)
    return .list [.text g.document, ofGraph h]
  | replay g k => do
    let g ← g.eval s
    let k := (← (k.mapM tapeAt : Build Float (Option Nat))).getD (← get).active
    let g ← Build.ofExcept g.toGraph
    let (p, ss) ← g.replay Leaf.rules Numeral.toFloat k
    return .list [ofHandle? p, .handles ss]
  | statistics g => do return ofStatistics (← graphAt s g).statistics
  | summary g detailed => do
    return .text (Graph.printed ((← graphAt s g).summary detailed))
  | listing g limit => do
    let g ← g.eval s
    let limit ← (limit.mapM (Expression.eval s) : Build Float (Option Value))
    let g ← Build.ofExcept g.toGraph
    return .text (← Build.ofExcept (printListing g (limit.getD (.int Graph.listingLimit))))
  | configure none => return s.switches
  | configure (some switches) => do
    let given ← evalNamed s switches
    let settings ← Build.ofExcept (Settings.ofGiven given)
    modify fun w => { w with settings }
    return ofSwitches given
  | compile g switches => do
    let g ← g.eval s
    let settings ← switches.mapM fun es => do
      Build.ofExcept (Settings.ofGiven (← evalNamed s es))
    let g ← Build.ofExcept do (← g.toGraph).convertM Numeral.toFloat
    return .program (← g.compile settings)
  | run p xs => do
    let p ← p.eval s
    let xs ← xs.eval s
    return .outputs (← callAt (← Build.ofExcept p.toProgram) xs)
  | nodeValues p xs => do
    match ← p.eval s with
    | .program p =>
      let xs ← Build.ofExcept (← xs.eval s).toVector
      return ofReals (← p.nodeTable Leaf.rules xs)
    | _ => throw .noSuchField
  | table samples body secondary points => do
    let p ← tableProgram s samples body secondary
    return .list (← points.mapM fun e => do return .outputs (← callAt p (← e.eval s)))
  | derivative body point => do
    let x ← Build.ofExcept (← point.eval s).toFloat
    let f (h : Handle) : Build Float (Operand Float) := do
      return (← body.eval { s with argument := some (.handle h) }).numberOperand
    return .real (← derivativeOf Binary64.calculus f x)
  | gradient body point => do
    let xs ← Build.ofExcept (← point.eval s).toPoint
    let f (hs : List Handle) : Build Float (Operand Float) := do
      return (← body.eval { s with argument := some (.handles hs) }).numberOperand
    return .reals (← gradientOf Binary64.calculus f xs)
  | random seed args => do
    let given ← args.bind s ["n_inputs", "n_ops"] ["smooth", "window"]
    let (h, hs) ← (RecipeArguments.ofGiven given).expression seed
    return .list [.handle h, .handles hs]
  | samplePoint g => do
    let xs ← Build.ofExcept ((← graphAt s g).samplePoint Numeral.toFloat)
    return .vector xs.toList
  | checkGradient p xs step => do
    let p ← p.eval s
    let xs ← xs.eval s
    let step ← (step.mapM (Expression.eval s) : Build Float (Option Value))
    let (axes, xs) ← Build.ofExcept xs.toArray
    let p ← Build.ofExcept p.toProgram
    return ofCheck (← GradientCheck.run p axes xs.toArray (step.getD (.real 1e-6)).toStep)
  | fixture args raw => do
    let given ← args.bind s ["seed", "n_inputs", "n_ops"] ["smooth"]
    let seed ← Build.ofExcept (parameter given "seed" (.int 0)).toInteger
    return ofFixture (← (RecipeArguments.ofGiven given).fixture seed) raw []
  | commandLine arguments raw => runCommandLine arguments raw

end ScalarGraph.Command
