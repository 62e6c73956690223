import ScalarGraph.Construct
import ScalarGraph.Numeral
import ScalarGraph.Program

/-! # Values

What a step of a session takes and gives. Numbers keep the form in which they
were given, vectors hold machine numbers only, and shapes hold any values.
-/
namespace ScalarGraph

inductive Value where
  | nothing
  | bool (b : Bool)
  | int (i : Int)
  | real (x : Float)
  /-- An entry of a vector. -/
  | entry (x : Float)
  | text (t : Text)
  | list (vs : List Value)
  | vector (xs : List Float)
  | handle (h : Handle)
  | handleVector (hs : List Handle)
  /-- The points with `a (X - x)² + b (Y - y)² = c`. -/
  | ellipse (a b c x y : Value)
  /-- The points with `a X + b Y ≤ c`. -/
  | halfPlane (a b c : Value)
  | graph (g : Graph Numeral)
  | program (p : Program Float)
  | outputs (o : Outputs Float)
  | table (fields : List (Text × Value))
  | arena (nodes : Option (List (Node Float Nat))) (numInputs : Nat)

instance Value.inhabited : Inhabited Value := ⟨.nothing⟩

namespace Value

def handles (hs : List Handle) : Value := list (hs.map handle)

def reals (xs : List Float) : Value := list (xs.map real)

def ofReal? (x : Option Float) : Value := (x.map real).getD nothing

def ids (ts : List Text) : Value := list (ts.map text)

def record (fields : List (String × Value)) : Value :=
  table (fields.map fun f => (Text.ofString f.1, f.2))

def typeName : Value → String
  | nothing => "NoneType"
  | bool _ => "bool"
  | int _ => "int"
  | real _ => "float"
  | entry _ => "numpy.float64"
  | text _ => "str"
  | list _ => "list"
  | vector _ | handleVector _ => "numpy.ndarray"
  | handle _ => "energy_ad.aad.core.var.ADVar"
  | ellipse .. => "energy_ad.contrib.implicit_shapes.ImplicitEllipse"
  | halfPlane .. => "energy_ad.contrib.implicit_shapes.ImplicitHalfPlane"
  | graph _ => "energy_ad.aad.core.extract.ExtractedGraph"
  | program _ => "energy_ad.aad.core.engine.Evaluator"
  | outputs _ => "energy_ad.aad.core.engine.Outputs"
  | table _ | arena .. => "dict"

def typeText (v : Value) : Text := Text.concat ["<class '", v.typeName, "'>"]

def numeral? : Value → Option Numeral
  | bool b => some (.bool b)
  | int i => some (.int i)
  | real x => some (.real x)
  | entry x => some (.entry x)
  | _ => none

/-- The machine number that a value is or spells. -/
def toFloat : Value → Except Fault Float
  | text t => (Numeral.text t).toFloat
  | v =>
    match v.numeral? with
    | some n => n.toFloat
    | none => .error .wrongType

/-- The value as an operand of a constructor: texts are no numbers there. -/
def operand : Value → Operand Float
  | handle h => .handle h
  | text t => .unfit (.notScalar (text t).typeText)
  | v =>
    match v.toFloat with
    | .ok x => .number x
    | .error .outOfRange => .unfit .outOfRange
    | .error _ => .unfit (.notScalar v.typeText)

/-- The value as an operand that counts wherever a number is read: numerals in texts do, too. -/
def numberOperand : Value → Operand Float
  | handle h => .handle h
  | v =>
    match v.toFloat with
    | .ok x => .number x
    | .error f => .unfit f

def items : Value → Except Fault (List Value)
  | list vs => .ok vs
  | vector xs => .ok (xs.map entry)
  | handleVector hs => .ok (hs.map handle)
  | text t => .ok (t.map fun c => text [c])
  | table fields => .ok (fields.map fun f => text f.1)
  | _ => .error .wrongType

end Value
end ScalarGraph
