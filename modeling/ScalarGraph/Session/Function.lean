import ScalarGraph.Binary64.Elementary
import ScalarGraph.Derivative
import ScalarGraph.Geometry.Pencil
import ScalarGraph.Value.Equality
import ScalarGraph.Value.Shown

/-! # Functions

The functions that a session can call on values. Each takes its arguments from
left to right and fails at the first that does not fit, with what was built until
then left on the tape.
-/
namespace ScalarGraph

inductive Selector where
  | index (i : Int)
  | field (name : Text)
deriving DecidableEq

namespace Value

/-- The place that an index stands for in a list of `n` items, from the end where it is negative. -/
def place? (n : Nat) (i : Int) : Option Nat :=
  let k := if i < 0 then i + n else i
  if 0 ≤ k ∧ k < n then some k.toNat else none

def itemAt (vs : List Value) (i : Int) : Except Fault Value :=
  match (place? vs.length i).bind (vs[·]?) with
  | some v => .ok v
  | none => .error .noSuchElement

def index (v : Value) (i : Int) : Except Fault Value :=
  match v with
  | table _ => .error .noSuchKey
  | entry _ => .error .noSuchElement
  | v => do itemAt (← v.items) i

def parts : Value → List (String × Value)
  | ellipse a b c x y => [("a", a), ("b", b), ("c", c), ("x", x), ("y", y)]
  | halfPlane a b c => [("a", a), ("b", b), ("c", c)]
  | outputs o =>
    [("primary", ofReal? o.primary), ("gradient", vector o.gradient.toList),
      ("secondary", vector o.secondary)]
  | graph g =>
    [("primary", (g.primary.map text).getD nothing), ("secondary", ids g.secondary),
      ("order", ids g.order), ("num_inputs", int g.numInputs)]
  | _ => []

def partNamed (parts : List (String × Value)) (name : Text) : Except Fault Value :=
  match parts.find? fun p => Text.ofString p.1 = name with
  | some p => .ok p.2
  | none => .error .noSuchField

def parameter (v : Value) (name : Text) : Except Fault Value := partNamed v.parts name

/-- What a handle tells of its node. A value is that of a constant or the sample of an input. -/
def nodeParts (w : Workspace Float) (h : Handle) : List (String × Value) :=
  [("index", int h.index), ("val", ofReal? (terminalValue? w h)),
    ("is_const", bool ((w.tape h.tape).constant? h.index).isSome)]

def select (w : Workspace Float) (v : Value) : Selector → Except Fault Value
  | .index i => v.index i
  | .field name =>
    match v with
    | handle h => partNamed (nodeParts w h) name
    | v => v.parameter name

/-- Whether a value counts as true. An array does where its one entry does. -/
def isTrue : Value → Except Fault Bool
  | nothing => .ok false
  | bool b => .ok b
  | int i => .ok (i != 0)
  | real x | entry x | vector [x] => .ok !(x == 0.0)
  | text t => .ok !t.isEmpty
  | list vs => .ok !vs.isEmpty
  | table fields => .ok !fields.isEmpty
  | handleVector [_] => .ok true
  | vector _ | handleVector _ => .error .badValue
  | _ => .ok true

def isNonzero (v : Value) : Except Fault Bool := (v.equals (.int 0)).map fun b => !b

def ofOperand : Operand Float → Value
  | .handle h => handle h
  | .number x => real x
  | .unfit _ => nothing

end Value

/-- A leaf is a value, or the fault of looking it up. -/
abbrev Leaf := Except Fault Value

namespace Leaf

abbrev Expression := Term Float Leaf

def term (v : Value) : Expression := .leaf (.ok v)

def terms (vs : List Value) : List Expression := vs.map term

def find (l : Leaf) : Build Float (Operand Float) := Build.ofExcept (l.map Value.operand)

def rules : Rules Float := Binary64.calculus.rules

def numeral (n : Nat) : Float := Float.ofNat n

def build (t : Expression) : Build Float Value := Value.ofOperand <$> t.build rules find

def buildAll (ts : List Expression) : Build Float (List Value) :=
  (·.map Value.ofOperand) <$> Term.buildAll rules find ts

def vector (v : Value) : Build Float (List Expression) := Build.ofExcept (v.items.map terms)

def pair (v : Value) : Build Float (Value × Value) := do
  match ← Build.ofExcept v.items with
  | [p, q] => return (p, q)
  | _ => throw .badValue

def segment (v : Value) : Build Float (List Expression × List Expression) := do
  let (p, q) ← pair v
  let q ← vector q
  return (← vector p, q)

def field (v : Value) (name : String) : Expression := .leaf (v.parameter (Text.ofString name))

def ellipse (v : Value) : Ellipse Expression :=
  ⟨field v "a", field v "b", field v "c", field v "x", field v "y"⟩

def halfPlane (v : Value) : HalfPlane Expression := ⟨field v "a", field v "b", field v "c"⟩

end Leaf

inductive Function where
  | const | input
  | unary (o : UnaryOp) | binary (o : BinaryOp) | select | nary (o : NaryOp) | debug
  | unaryNamed | binaryNamed | naryNamed
  | value | values
  | plus | minus | scaled | dot | norm | normalized | rotated | outwardNormal
  | circle | ellipse | halfPlane | ellipseLevel | halfPlaneLevel
  | coefficients | polynomial | degree
deriving DecidableEq

namespace Function
open Leaf

def handle (n : Node Float Value) : Build Float Handle :=
  ScalarGraph.construct rules (n.map Value.operand)

def construct (n : Node Float Value) : Build Float Value := .handle <$> handle n

def named {β : Type} (family : Family) (find : Text → Option β) (v : Value) : Build Float β := do
  if !v.isComparable then throw .wrongType
  let found : Option β := match v with
    | .text t => find t
    | _ => none
  match found with
  | some o => return o
  | none => Build.violate (.unknownOperator family (v.shown (← get)))

def makeInput (position sample : Value) : Build Float Value := do
  let i : Option Int ← match position with
    | .nothing => pure none
    | .int i => pure (some i)
    | v => Build.violate (.inputNotInteger (v.shown (← get)))
  let x ← Build.ofExcept sample.toFloat
  return .handle (← ScalarGraph.makeInput i x)

/-- The value of a constant or the sample value of an input; what is no handle stays as it is. -/
def valueOf (v : Value) : Build Float Value := do
  match v with
  | .handle h =>
    let w ← get
    match terminalValue? w h with
    | some x => return .real x
    | none => throw (.notTerminal (w.shownHandle h))
  | v => return v

def valuesOf (vs : List Value) : Build Float (List Float) :=
  numbersOf Binary64.calculus (vs.map Value.numberOperand)

def ofOperands (b : Build Float (List (Operand Float))) : Build Float (List Value) :=
  (·.map Value.ofOperand) <$> b

/-- The degree of a polynomial with these coefficients. That they cannot be told from zero is a
fault only above the degree. -/
def degreeOf (v : Value) : Except Fault Nat := do
  let tests := (← v.items).map Value.isNonzero
  let degree := Pencil.degree (tests.map fun t => t.toOption.getD true)
  match v, tests[degree]? with
  | .table _, _ => if tests.length ≤ 1 then return 0 else throw .noSuchKey
  | _, some (.error f) => if degree = 0 then return 0 else throw f
  | _, _ => return degree

/-- Calls a function on as many arguments as it takes. -/
def apply : Function → List Value → Build Float Value
  | const, [v] => do return .handle (← makeConst (← Build.ofExcept v.toFloat))
  | input, [] => makeInput .nothing (.real 0.0)
  | input, [i] => makeInput i (.real 0.0)
  | input, [i, s] => makeInput i s
  | unary o, [v] => construct (.unary o v)
  | binary o, [v, w] => construct (.binary o v w)
  | select, [c, t, e] => construct (.select c t e)
  | nary o, [v] => do construct (.nary o (← Build.ofExcept v.items))
  | debug, [v] => construct (.debug [] v)
  | debug, [v, l] => do construct (.debug (l.plain (← get)) v)
  | unaryNamed, [v, o] => do construct (.unary (← named .unary UnaryOp.named? o) v)
  | binaryNamed, [v, w, o] => do construct (.binary (← named .binary BinaryOp.named? o) v w)
  | naryNamed, [v, o] => do
    let o ← named .nary NaryOp.named? o
    construct (.nary o (← Build.ofExcept v.items))
  | value, [v] => valueOf v
  | values, [v] => do return .reals (← valuesOf (← Build.ofExcept v.items))
  | plus, [u, v] => do
    let u ← vector u
    return .list (← buildAll (Vector.plus u (← vector v)))
  | minus, [u, v] => do
    let u ← vector u
    return .list (← buildAll (Vector.minus u (← vector v)))
  | scaled, [c, v] => do return .list (← buildAll (Vector.scaled (term c) (← vector v)))
  | dot, [u, v] => do
    let u ← vector u
    build (Vector.dot u (← vector v))
  | norm, [v] => do build (Vector.norm (← vector v))
  | normalized, [v] => do
    return .list (← ofOperands (Vector.buildNormalized rules find (← vector v)))
  | rotated, [v] => do
    let (x, y) ← pair v
    return .list [← build (Term.neg (term y)), x]
  | outwardNormal, [s, i] => do
    let (p, q) ← segment s
    let normal ← Vector.buildOutward rules find 0.0 p q (i.items.map terms)
    return .list (normal.map fun n => .ofOperand n.2)
  | circle, [p, r, d] => do
    let c ← build (Ellipse.ofRadius (term r) (term d))
    return .ellipse (.int 1) (.int 1) c (← Build.ofExcept (p.index 0)) (← Build.ofExcept (p.index 1))
  | ellipse, [p, rx, ry, d] => do
    match ← ofOperands (Ellipse.buildOfRadii rules find (term rx) (term ry) (term d)) with
    | [a, b, c] =>
      return .ellipse a b c (← Build.ofExcept (p.index 0)) (← Build.ofExcept (p.index 1))
    | _ => throw .badValue
  | halfPlane, [s, i, d] => do
    let (p, q) ← segment s
    let start := (s.index 0).bind fun v => v.items.map terms
    let h ← HalfPlane.build rules find 0.0 p q (i.items.map terms) start (term d)
    return .halfPlane (.ofOperand h.a) (.ofOperand h.b) (.ofOperand h.c)
  | ellipseLevel, [e, x, y] => build ((Leaf.ellipse e).level (term x) (term y))
  | halfPlaneLevel, [h, x, y] => build ((Leaf.halfPlane h).level (term x) (term y))
  | coefficients, [p, q] => do
    return .list (← ofOperands
      (Pencil.buildCoefficients numeral find rules (Leaf.ellipse p) (Leaf.ellipse q)))
  | polynomial, [p, q] => do
    return .list (← ofOperands
      (Pencil.buildPolynomial numeral find Binary64.calculus (Leaf.ellipse p) (Leaf.ellipse q)))
  | degree, [v] => do return .int (← Build.ofExcept (degreeOf v))
  | _, _ => throw .wrongType

end Function
end ScalarGraph
