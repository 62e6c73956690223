import ScalarGraph.CommandLine
import ScalarGraph.Random.Fixture

/-! # The generator of fixtures

Draws a random expression and writes its graph and its outputs into a directory.
-/
namespace ScalarGraph

def Text.toString (t : Text) : String := String.ofList (t.map fun c => Char.ofNat c.value)

def help : String :=
  "Generate random energy graphs and their evaluator outputs\n\n" ++
  "  --seed N    random seed (default: 0)\n" ++
  "  --inputs N  number of input variables (default: 4)\n" ++
  "  --ops N     number of random operations (default: 50)\n" ++
  "  --out DIR   output directory for graph.json and outputs.json (default: .)\n" ++
  "  --smooth    only use smooth operators\n" ++
  "  --check     also compare the gradient against finite differences\n"

/-- The fixture that is asked for, with the check of its gradient where that is asked for too. -/
def CommandLine.Request.fixture (r : CommandLine.Request) :
    Build Float (Fixture × Option GradientCheck) := do
  match r.seed, r.inputs, r.operators with
  | some seed, some inputs, some operators =>
    let recipe : Recipe :=
      { inputs := inputs.toNat, operators := operators.toNat, smooth := r.smooth }
    let f ← Fixture.generate seed recipe
    return (f, ← if r.check then some <$> f.check else pure none)
  | _, _, _ => throw .wrongType

def writeFixture (directory : String) (f : Fixture) : IO Unit := do
  IO.FS.createDirAll directory
  IO.FS.writeFile (directory ++ "/graph.json") (Text.toString f.graph.document)
  IO.FS.writeFile (directory ++ "/outputs.json") (Text.toString f.outputsText)

end ScalarGraph

open ScalarGraph in
def main (arguments : List String) : IO UInt32 := do
  match CommandLine.read (arguments.map Text.ofString) with
  | .error r =>
    if r.code = 0 then IO.print help else IO.eprint help
    return UInt32.ofNat r.code
  | .ok r =>
    match (r.fixture.run {}).1, r.target with
    | .ok (f, check), some target =>
      writeFixture (Text.toString target) f
      if let some c := check then IO.print (Text.toString (GradientCheck.line c))
      return 0
    | _, _ => IO.eprintln "nothing can be drawn as it is asked for"; return 1
