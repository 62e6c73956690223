import ScalarGraph.Binary64.Elementary
import ScalarGraph.Construct
import ScalarGraph.Random.Source

/-! # Random expressions

An expression grows from inputs by one random operator at a time. Operands are
mostly drawn from the last few results, so that the expression gets deep, and
sometimes from all of them, so that nodes are shared. The primary output is the
sum of the last four results.
-/
namespace ScalarGraph

/-- How many of the last results most operands are drawn from. -/
inductive Window where
  | whole (n : Nat)
  | real (x : Float)
  /-- No number; then no operand can be drawn from the last results. -/
  | unfit

structure Recipe where
  inputs : Nat := 4
  operators : Nat := 50
  smooth : Bool := false
  window : Window := .whole 8

namespace Recipe

def unaryOps (r : Recipe) : List UnaryOp :=
  if r.smooth then [.neg, .sin, .cos, .tanh, .atan, .asinh] else UnaryOp.all

def binaryOps (r : Recipe) : List BinaryOp :=
  if r.smooth then [.add, .sub, .mul] else BinaryOp.all

def naryOps (r : Recipe) : List NaryOp := if r.smooth then [.sum] else NaryOp.all

end Recipe

/-- A step of building that draws from a source. -/
abbrev Draw (σ : Type) := StateT σ (Build Float)

namespace Draw
variable {σ β : Type} (S : Source σ)

def unit : Draw σ Float := modifyGet S.unit

def uniform (low high : Float) : Draw σ Float := modifyGet (S.uniform low high)

def between (low high : Nat) : Draw σ Nat := do
  if high ≤ low then throw .badValue
  modifyGet (S.between low high)

def item (xs : List β) : Draw σ β := do
  match xs[← modifyGet (S.position xs.length)]? with
  | some x => return x
  | none => throw .noSuchElement

def entry (xs : Array β) (i : Nat) : Draw σ β := do
  match xs[i]? with
  | some x => return x
  | none => throw .noSuchElement

/-- To two decimal places, a half to the even side. -/
def hundredths (x : Float) : Float := Binary64.rint (x * 100.0) / 100.0

/-- A number from one on, whose part above one is below a bound that need not be whole. -/
def counted (bound : Float) : Draw σ Nat := do
  if bound ≤ 0.0 then throw .badValue
  match Binary64.toInt? (Binary64.trunc (1.0 + (← modifyGet (S.part bound)))) with
  | some k => return k.toNat
  | none => throw .badValue

/-- How far from the end of `n` results an operand stands. -/
def distance (w : Window) (n : Nat) : Draw σ Nat := do
  match w with
  | .whole k => between S 1 (min k n + 1)
  | .real x => if Float.ofNat n < x then between S 1 (n + 1) else counted S (x + 1.0 - 1.0)
  | .unfit => throw .wrongType

def pick (r : Recipe) (pool : Array Handle) : Draw σ Handle := do
  if (← unit S) < 0.75 then entry pool (pool.size - (← distance S r.window pool.size))
  else entry pool (← between S 0 pool.size)

def picks (r : Recipe) (pool : Array Handle) : Nat → Draw σ (List Handle)
  | 0 => return []
  | n + 1 => do
    let h ← pick S r pool
    return h :: (← picks r pool n)

def construct (n : Node Float (Operand Float)) : Draw σ Handle :=
  liftM (ScalarGraph.construct Binary64.calculus.rules n)

/-- The label of a debug node over `n` results. -/
def label (n : Nat) : Text := Text.ofString "fuzz" ++ Text.ofNat n

def result (r : Recipe) (pool : Array Handle) : Draw σ Handle := do
  let kind ← unit S
  if kind < 0.4 then
    let x ← pick S r pool
    construct (.unary (← item S r.unaryOps) (.handle x))
  else if kind < 0.8 then
    let y ← if (← unit S) < 0.8 then Operand.handle <$> pick S r pool
      else (fun v => Operand.number (hundredths v)) <$> uniform S (-3.0) 3.0
    let x ← pick S r pool
    construct (.binary (← item S r.binaryOps) (.handle x) y)
  else if kind < 0.9 then
    let xs ← picks S r pool (← between S 2 6)
    construct (.nary (← item S r.naryOps) (xs.map .handle))
  else if r.smooth then
    let x ← pick S r pool
    let y ← pick S r pool
    construct (.binary .add (.handle x) (.handle y))
  else if kind < 0.95 then
    let c ← pick S r pool
    let x ← pick S r pool
    let y ← pick S r pool
    construct (.select (.handle c) (.handle x) (.handle y))
  else
    let x ← pick S r pool
    construct (.debug (label pool.size) (.handle x))

/-- The inputs at the positions below `n`, with sample values between -2 and 2. -/
def inputs (n : Nat) : Draw σ (Array Handle) :=
  (List.range n).foldlM (fun pool (i : Nat) => do
    let v ← uniform S (-2.0) 2.0
    return pool.push (← liftM (makeInput (some (i : Int)) v : Build Float Handle))) #[]

def grown (r : Recipe) : Nat → Array Handle → Draw σ (Array Handle)
  | 0, pool => return pool
  | n + 1, pool => do
    let h ← result S r pool
    grown r n (pool.push h)

/-- How many of the last results the primary output sums up. -/
def tailLength : Nat := 4

/-- A random expression on the active tape: its primary output and its inputs. -/
def expression (r : Recipe) : Draw σ (Handle × List Handle) := do
  let inputs ← inputs S r.inputs
  let pool ← grown S r r.operators inputs
  let tail := pool.toList.drop (pool.size - tailLength)
  return (← construct (.nary .sum (tail.map .handle)), inputs.toList)

end Draw
end ScalarGraph
