import ScalarGraph.Graph
import ScalarGraph.Workspace

/-! # Programs

A program has one instruction for each node of a graph, in topological order; the
operands of an instruction are the slots of earlier ones. A forward sweep
computes the value of every slot. A reverse sweep starts with adjoint one at the
primary output, passes each adjoint on to the operands by the local partials, and
adds what arrives at an input to its entry of the gradient.
-/
namespace ScalarGraph
variable {α : Type}

structure Program (α : Type) where
  code : Array (Node α Nat)
  ids : List Text
  primary : Option Nat
  secondary : List Nat
  numInputs : Int
  settings : Settings

structure Outputs (α : Type) where
  primary : Option α
  gradient : Array α
  secondary : List α

/-- The program of a graph; `none` where an identifier has no node. -/
def Graph.compile? (g : Graph α) (settings : Settings) : Option (Program α) := do
  let slots : Std.HashMap Text Nat := .ofList g.order.zipIdx
  let nodes : Std.HashMap Text (Node α Text) := .ofList g.nodes
  let slot (id : Text) : Option Nat := slots[id]?
  let code ← g.order.mapM fun id => do (← nodes[id]?).mapM slot
  return { code := code.toArray, ids := g.order, primary := ← g.primary.mapM slot,
           secondary := ← g.secondary.mapM slot, numInputs := g.numInputs, settings }

namespace Program

/-- Marks the operands of slot `i` where the slot itself is marked. -/
def spread (p : Program α) (live : Array Bool) (i : Nat) : Array Bool :=
  if live.getD i false then
    ((p.code[i]?.map Node.operands).getD []).foldl (fun l c => l.setIfInBounds c true) live
  else live

/-- The slots that feed the primary output, users before their operands. -/
def gradientPath (p : Program α) : List Nat :=
  match p.primary with
  | none => []
  | some r =>
    let slots := (List.range p.code.size).reverse
    let live := (slots.filter (· ≤ r)).foldl p.spread
      ((Array.replicate p.code.size false).setIfInBounds r true)
    slots.filter fun i => live.getD i false

def forwardStep (R : Rules α) (xs : Array α) (values : Array α) (n : Node α Nat) :
    Option (Array α) := do
  let n ← n.mapM fun c => values[c]?
  return values.push (n.value R xs)

/-- The values of all slots; `none` where an instruction reads a slot after its own. -/
def forward (p : Program α) (R : Rules α) (xs : Array α) : Option (Array α) :=
  p.code.foldlM (forwardStep R xs) #[]

/-- The adjoints of the slots and the gradient, both as far as they are added up. -/
structure Sweep (α : Type) where
  adjoints : Array α
  gradient : Array α

/-- Adds to an entry; `none` beyond the last one. -/
def addAt (A : Adjoints α) (xs : Array α) (i : Nat) (d : α) : Option (Array α) :=
  if h : i < xs.size then some (xs.set i (A.add xs[i] d)) else none

def addShares (A : Adjoints α) (adjoints : Array α) (shares : List (Nat × α)) : Option (Array α) :=
  shares.foldlM (fun xs s => addAt A xs s.1 s.2) adjoints

/-- What slot `i` passes on: an input to the gradient, any other node to its operands. -/
def reverseStep (p : Program α) (C : Calculus α) (values : Array α) (s : Sweep α) (i : Nat) :
    Option (Sweep α) := do
  let a ← s.adjoints[i]?
  if p.settings.skipZeroAdjoints && C.adjoints.isZero a then return s
  match ← p.code[i]? with
  | .input k _ => return { s with gradient := ← addAt C.adjoints s.gradient k a }
  | n =>
    let given ← n.mapM fun c => values[c]?
    let shares := given.shares C (← values[i]?) a
    return { s with adjoints := ← addShares C.adjoints s.adjoints (n.operands.zip shares) }

def seed (p : Program α) (A : Adjoints α) (length r : Nat) : Sweep α where
  adjoints := (Array.replicate p.code.size A.zero).setIfInBounds r A.one
  gradient := Array.replicate length A.zero

/-- The adjoints of all slots and the gradient; `none` where an input has no entry. -/
def reverse (p : Program α) (C : Calculus α) (values : Array α) (length r : Nat) :
    Option (Sweep α) :=
  p.gradientPath.foldlM (p.reverseStep C values) (p.seed C.adjoints length r)

/-- The length of the gradient for a vector of `n` entries. -/
def gradientLength (p : Program α) (n : Nat) : Nat := max p.numInputs.toNat n

def outputs (p : Program α) (C : Calculus α) (values : Array α) (n : Nat) :
    Option (Outputs α) := do
  let value (i : Nat) : Option α := values[i]?
  let gradient ← match p.primary with
    | some r => (p.reverse C values (p.gradientLength n) r).map Sweep.gradient
    | none => some (Array.replicate (p.gradientLength n) C.adjoints.zero)
  return { primary := ← p.primary.mapM value, gradient, secondary := ← p.secondary.mapM value }

/-- What a program gives at an input vector, without any log. -/
def run (p : Program α) (C : Calculus α) (xs : Array α) : Option (Outputs α) := do
  p.outputs C (← p.forward C.rules xs) xs.size

def nodeValues (p : Program α) (R : Rules α) (xs : Array α) : Option (List (Text × α)) := do
  return p.ids.zip (← p.forward R xs).toList

end Program
end ScalarGraph
