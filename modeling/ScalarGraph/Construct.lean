import ScalarGraph.Workspace

/-! # Constructors

A constructor takes handles and numbers. All handles must belong to one tape,
the numbers become constants there, and the node is settled there. Without any
handle that tape is the active one.
-/
namespace ScalarGraph
variable {α : Type} [DecidableEq α] [Hashable α]

inductive Operand (α : Type) where
  | handle (h : Handle)
  | number (x : α)
  | unfit (f : Fault)

namespace Operand

def tape? : Operand α → Option Nat
  | handle h => some h.tape
  | _ => none

/-- The arena index of an operand on a tape; a number becomes a constant there. -/
def promote (k : Nat) : Operand α → Build α Nat
  | handle h => return h.index
  | number x => Build.onTape k (·.const x)
  | unfit f => throw f

end Operand

/-- The tape that all handles belong to, the active one where there are none. -/
def sharedTape (xs : List (Operand α)) : Build α Nat :=
  match xs.filterMap Operand.tape? with
  | [] => return (← get).active
  | k :: ks => if ks.all (· == k) then return k else Build.violate .mixedOperands

/-- The handle of a node on the given operands, settled where they are constants. -/
def construct (R : Rules α) (n : Node α (Operand α)) : Build α Handle := do
  let k ← sharedTape n.operands
  let n ← n.mapM (Operand.promote k)
  return ⟨k, ← Build.onTape k (·.settle R n)⟩

def makeConst (x : α) : Build α Handle := do
  let k := (← get).active
  return ⟨k, ← Build.onTape k (·.const x)⟩

/-- An input on the active tape; without a position the next free one. -/
def makeInput [Written α] (position : Option Int) (sample : α) : Build α Handle := do
  let k := (← get).active
  return ⟨k, ← Build.onTape? k (·.declare position sample)⟩

end ScalarGraph
