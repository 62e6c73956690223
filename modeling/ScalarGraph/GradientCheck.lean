import ScalarGraph.Binary64.Elementary
import ScalarGraph.Construct
import ScalarGraph.Evaluation

/-! # Checking gradients

The gradient of a program is held against forward differences of its primary
output, one entry of the input vector at a time.
-/
namespace ScalarGraph

structure GradientCheck where
  analytic : List Float
  numeric : List Float
  maxError : Float

inductive StepEntry where
  | number (x : Float)
  | handle (h : Handle)
  | unfit (f : Fault)

/-- How far the entries of an input vector are moved. -/
inductive Step where
  | relative
  | given (axes : List Nat) (entries : List StepEntry)
  | unfit (f : Fault)

def Step.absolute (h : Float) : Step := .given [] [.number h]

def StepEntry.toFloat : StepEntry → Except Fault Float
  | number x => .ok x
  | handle _ => .error .wrongType
  | unfit f => .error f

namespace GradientCheck

/-- The square root of the distance from one to the next number. -/
def relativeStep : Float := Float.ofBits 0x3e50000000000000

def relativeAt (x : Float) : Float :=
  (if 0.0 ≤ x then relativeStep else -relativeStep) * Binary64.maximum 1.0 x.abs

/-- The step at `x`; one that would not move `x` gives way to the relative one. -/
def stepAt (x h : Float) : Float := if (x + h) - x == 0.0 then relativeAt x else h

/-- The step at each entry. The last axis of an array must fit to the entries, one step standing
for any number of them; without entries no step is used. An array with further axes has a step for
all entries at once in the place of each, which is a fault. -/
def steps (s : Step) (xs : List Float) : Except Fault (List Float) := do
  match s with
  | .relative => return xs.map relativeAt
  | .unfit f => throw f
  | .given axes entries =>
    let width := axes.getLastD 1
    if width ≠ xs.length ∧ width ≠ 1 ∧ xs.length ≠ 1 then throw .badValue
    if xs.isEmpty then return []
    let hs ← entries.mapM StepEntry.toFloat
    match axes.drop 1, hs with
    | [], [h] => return xs.map fun x => stepAt x h
    | [], hs => if hs.isEmpty then throw .noSuchElement else return List.zipWith stepAt xs hs
    | _, _ => if axes.headD 0 < xs.length then throw .noSuchElement else throw .badValue

/-- The entries with their steps, one of either kind standing for any number. -/
def besideSteps (xs : List Float) (entries : List StepEntry) : List (Float × StepEntry) :=
  match xs, entries with
  | xs, [e] => xs.map (·, e)
  | [x], es => es.map (x, ·)
  | xs, es => xs.zip es

def movedBy : Float × StepEntry → Build Float (Option (Float × Handle))
  | (x, .handle h) => do
    return some (x, ← construct Binary64.calculus.rules (.binary .add (.number x) (.handle h)))
  | (_, .number _) => return none
  | (_, .unfit f) => throw f

/-- A handle in the place of a step is added to the entry and the entry taken away again, before it
shows that this is no number. -/
def moveByHandles (xs : List Float) : Step → Build Float Unit
  | .given axes entries => do
    if axes.length ≤ 1 ∧ (entries.any fun e => e matches .handle _) then
      let width := axes.headD 1
      if width = xs.length ∨ width = 1 ∨ xs.length = 1 then
        let moved ← (besideSteps xs entries).mapM movedBy
        moved.reduceOption.forM fun p =>
          discard (construct Binary64.calculus.rules (.binary .sub (.handle p.2) (.number p.1)))
  | _ => return ()

def primaryAt (p : Program Float) (xs : Array Float) : Build Float (Option Float) := do
  return (← p.call Binary64.calculus xs).primary

/-- The quotient of differences when entry `i` is moved by `h`. -/
def difference (p : Program Float) (xs : Array Float) (base : Option Float) (i : Nat) (h : Float) :
    Build Float Float := do
  let x := xs.getD i 0.0
  match ← primaryAt p (xs.setIfInBounds i (x + h)), base with
  | some v, some w => return (v - w) / ((x + h) - x)
  | _, _ => throw .wrongType

/-- The largest difference between two vectors, zero where they are empty. -/
def largest (xs ys : List Float) : Float :=
  match List.zipWith (fun x y => (x - y).abs) xs ys with
  | [] => 0.0
  | d :: ds => ds.foldl Binary64.maximum d

/-- Checks a program at a point that was given with so many axes, one of them being the rule. -/
def run (p : Program Float) (axes : List Nat) (xs : Array Float) (s : Step) :
    Build Float GradientCheck := do
  let out ← p.call Binary64.calculus xs
  if axes.isEmpty then throw .wrongType
  let base ← primaryAt p xs
  if 1 < axes.length then throw .badValue
  let base ← if base.isSome then pure base else primaryAt p xs
  moveByHandles xs.toList s
  let hs ← Build.ofExcept (steps s xs.toList)
  let numeric ← hs.zipIdx.mapM fun e => difference p xs base e.2 e.1
  let analytic := out.gradient.toList.take xs.size
  return { analytic, numeric, maxError := largest analytic numeric }

def line (c : GradientCheck) : Text :=
  Text.concat ["max |analytic - numeric| = ", Decimal.scientific 3 c.maxError, "\n"]

end GradientCheck
end ScalarGraph
