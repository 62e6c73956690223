import ScalarGraph.Construct
import ScalarGraph.Evaluation
import ScalarGraph.Graph.Extraction

/-! # Derivatives of functions

A function of handles is built on a tape of its own, whose inputs are its
arguments, and its gradient is read off one evaluation there.
-/
namespace ScalarGraph
variable {α : Type} [DecidableEq α] [Hashable α] [Written α]

/-- A handle as it is, a number as a constant on the active tape. -/
def Operand.ensured : Operand α → Build α Handle
  | handle h => return h
  | number x => makeConst x
  | unfit f => throw f

def makeInputs (i : Nat) : List α → Build α (List Handle)
  | [] => return []
  | x :: xs => do
    let h ← makeInput (some (i : Int)) x
    return h :: (← makeInputs (i + 1) xs)

/-- The gradient of a function at a point. -/
def gradientOf (C : Calculus α) (f : List Handle → Build α (Operand α)) (point : List α) :
    Build α (List α) :=
  Build.withFresh do
    let xs ← makeInputs 0 point
    let y ← (← f xs).ensured
    let p ← (← makeGraph (some y) []).compile none
    let out ← p.call C point.toArray
    return out.gradient.toList.take point.length

def derivativeOf (C : Calculus α) (f : Handle → Build α (Operand α)) (x : α) : Build α α := do
  let body : List Handle → Build α (Operand α)
    | [h] => f h
    | _ => throw .wrongType
  match ← gradientOf C body [x] with
  | d :: _ => return d
  | [] => throw .noSuchElement

def terminalValue? (w : Workspace α) (h : Handle) : Option α :=
  match (w.tape h.tape).nodes[h.index]? with
  | some (.const x) | some (.input _ x) => some x
  | _ => none

/-- The values of several nodes, with every input at its sample value. -/
def sampleValues (C : Calculus α) (hs : List Handle) : Build α (List α) := do
  let p ← (← makeGraph none hs).compile none
  return (← p.call C #[]).secondary

def Operand.handle? : Operand α → Option Handle
  | handle h => some h
  | _ => none

def merge : List (Operand α) → List α → Except Fault (List α)
  | [], _ => .ok []
  | .handle _ :: os, x :: xs => do return x :: (← merge os xs)
  | .handle _ :: _, [] => .error .noSuchElement
  | .number x :: os, xs => do return x :: (← merge os xs)
  | .unfit f :: _, _ => .error f

/-- The numbers that operands stand for, with every input at its sample value. -/
def numbersOf (C : Calculus α) (os : List (Operand α)) : Build α (List α) := do
  let handles := os.filterMap Operand.handle?
  let xs ← if handles.isEmpty then pure [] else sampleValues C handles
  Build.ofExcept (merge os xs)

end ScalarGraph
