import Std.Data.HashMap
import ScalarGraph.Literal

/-! # Tapes

A tape is an arena of nodes whose operands are earlier arena indices. Asking
again for a node that is there returns its index: constants, inputs and operator
nodes are shared. An operator all of whose operands are constants is settled at
once and becomes a constant itself.
-/
namespace ScalarGraph
variable {α β : Type} [DecidableEq α] [Hashable α]

/-- A node over numbers of another type, where it holds none. -/
def Node.operator? {ι : Type} : Node β ι → Option (Node α ι) := Node.convertM fun _ => none

structure Tape (α : Type) [DecidableEq α] [Hashable α] where
  nodes : Array (Node α Nat) := #[]
  /-- The index of each constant and each operator node. -/
  shared : Std.HashMap (Node α Nat) Nat := {}
  inputs : Std.HashMap Nat Nat := {}

namespace Tape

def empty : Tape α := {}

instance inhabited : Inhabited (Tape α) := ⟨empty⟩

def size (t : Tape α) : Nat := t.nodes.size

/-- One past the largest declared position. -/
def numInputs (t : Tape α) : Nat := t.inputs.keys.foldl (fun m i => max m (i + 1)) 0

def append (t : Tape α) (n : Node α Nat) : Tape α := { t with nodes := t.nodes.push n }

/-- Finds or appends a node that may be shared. -/
def share (t : Tape α) (n : Node α Nat) : Tape α × Nat :=
  match t.shared[n]? with
  | some i => (t, i)
  | none => ({ t.append n with shared := t.shared.insert n t.size }, t.size)

def const (t : Tape α) (v : α) : Tape α × Nat := t.share (.const v)

def sample? (t : Tape α) (i : Nat) : Option α :=
  match t.nodes[i]? with
  | some (.input _ s) => some s
  | _ => none

/-- Finds or appends an input; a position that is declared already keeps its sample value. -/
def input [Written α] (t : Tape α) (position : Nat) (s : α) : Except Violation (Tape α × Nat) :=
  match t.inputs[position]? with
  | none => .ok ({ t.append (.input position s) with inputs := t.inputs.insert position t.size }, t.size)
  | some i =>
    match t.sample? i with
    | none => .ok (t, i)
    | some old =>
      if old = s then .ok (t, i) else .error (.redeclared position (written old) (written s))

/-- Declares the input at a position, without one at the next free position. -/
def declare [Written α] (t : Tape α) (position : Option Int) (s : α) :
    Except Violation (Tape α × Nat) :=
  let i := position.getD t.numInputs
  if i < 0 then .error (.negativeInput i) else t.input i.toNat s

def constant? (t : Tape α) (i : Nat) : Option α :=
  match t.nodes[i]? with
  | some (.const v) => some v
  | _ => none

/-- An operator node, or the constant that it amounts to. -/
def settle (R : Rules α) (t : Tape α) (n : Node α Nat) : Tape α × Nat :=
  match n.mapM t.constant? with
  | some m => t.const (m.value R #[])
  | none => t.share n

def operand? (t : Tape α) (c : Int) : Except Violation Nat :=
  if 0 ≤ c ∧ c < t.size then .ok c.toNat else .error (.operandNotOnTape c)

/-- Finds or appends an operator node on the tape's own nodes, without settling it. -/
def push [Written β] (t : Tape α) (l : Literal β) (children : List Int) :
    Except Violation (Tape α × Nat) := do
  let n ← l.node? children
  match n.operator? with
  | none => throw .terminalPushed
  | some n => return t.share (← n.mapM t.operand?)

end Tape
end ScalarGraph
