import ScalarGraph.Construct

/-! # Terms

A term is a tree of operators over numbers and leaves. It can be built on a tape,
operands first and from left to right, and it has a value wherever its leaves
have one.
-/
namespace ScalarGraph
variable {α ν : Type}

inductive Term (α ν : Type) where
  | leaf (v : ν)
  | number (x : α)
  | unary (o : UnaryOp) (t : Term α ν)
  | binary (o : BinaryOp) (t u : Term α ν)
  | select (c t e : Term α ν)
  | nary (o : NaryOp) (ts : List (Term α ν))
  | debug (label : Text) (t : Term α ν)

namespace Term

def add (t u : Term α ν) : Term α ν := binary .add t u
def sub (t u : Term α ν) : Term α ν := binary .sub t u
def mul (t u : Term α ν) : Term α ν := binary .mul t u
def div (t u : Term α ν) : Term α ν := binary .div t u
def neg (t : Term α ν) : Term α ν := unary .neg t
def squared (t : Term α ν) : Term α ν := unary .squared t
def sqrt (t : Term α ν) : Term α ν := unary .sqrt t
def sum (ts : List (Term α ν)) : Term α ν := nary .sum ts

mutual
def value (R : Rules α) (leafValue : ν → α) : Term α ν → α
  | leaf v => leafValue v
  | number x => x
  | unary o t => R.unary o (value R leafValue t)
  | binary o t u => R.binary o (value R leafValue t) (value R leafValue u)
  | select c t e =>
    if R.truthy (value R leafValue c) then value R leafValue t else value R leafValue e
  | nary o ts => R.nary o (values R leafValue ts)
  | debug _ t => value R leafValue t

def values (R : Rules α) (leafValue : ν → α) : List (Term α ν) → List α
  | [] => []
  | t :: ts => value R leafValue t :: values R leafValue ts
end

variable [DecidableEq α] [Hashable α]

mutual
/-- The operand that a term amounts to; its operators become nodes. -/
def build (R : Rules α) (find : ν → Build α (Operand α)) : Term α ν → Build α (Operand α)
  | leaf v => find v
  | number x => return .number x
  | unary o t => do return .handle (← construct R (.unary o (← build R find t)))
  | binary o t u => do
    let x ← build R find t
    let y ← build R find u
    return .handle (← construct R (.binary o x y))
  | select c t e => do
    let c ← build R find c
    let x ← build R find t
    let y ← build R find e
    return .handle (← construct R (.select c x y))
  | nary o ts => do return .handle (← construct R (.nary o (← buildAll R find ts)))
  | debug l t => do return .handle (← construct R (.debug l (← build R find t)))

def buildAll (R : Rules α) (find : ν → Build α (Operand α)) :
    List (Term α ν) → Build α (List (Operand α))
  | [] => return []
  | t :: ts => do
    let x ← build R find t
    let xs ← buildAll R find ts
    return x :: xs
end

/-- Builds some terms for the order of their nodes, and then those that count. -/
def buildAfter (R : Rules α) (find : ν → Build α (Operand α)) (first results : List (Term α ν)) :
    Build α (List (Operand α)) := do
  discard (buildAll R find first)
  buildAll R find results

end Term
end ScalarGraph
