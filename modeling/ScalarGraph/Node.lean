import ScalarGraph.Rules

/-! # Nodes

A node is an operator with one operand of type `ι` in each of its slots: arena
indices on a tape, identifiers in a graph, slots in a program, and numbers where
the node is evaluated. `Op` is what is left of a node without its operands, and
`Role` names the slots.
-/
namespace ScalarGraph
variable {α ι κ : Type}

/-- The slot that an operand fills. -/
inductive Role where
  | only | left | right | cond | whenTrue | whenFalse
  | nth (k : Nat)
deriving DecidableEq

/-- The name of a slot; the slot of a single operand has none. -/
def Role.label? : Role → Option Text
  | only => none
  | left => some (Text.ofString "left")
  | right => some (Text.ofString "right")
  | cond => some (Text.ofString "cond")
  | whenTrue => some (Text.ofString "then")
  | whenFalse => some (Text.ofString "els")
  | nth k => some (Text.ofNat k)

/-- The slot that a name stands for. -/
def Role.named? : Option Text → Option Role
  | none => some only
  | some t =>
    if t = Text.ofString "left" then some left
    else if t = Text.ofString "right" then some right
    else if t = Text.ofString "cond" then some cond
    else if t = Text.ofString "then" then some whenTrue
    else if t = Text.ofString "els" then some whenFalse
    else (Text.natural? t).map nth

/-- The slots of an operator that takes `arity?` operands and is given `n`. -/
def Role.slots (arity? : Option Nat) (n : Nat) : List Role :=
  match arity? with
  | some 0 => []
  | some 1 => [only]
  | some 2 => [left, right]
  | some _ => [cond, whenTrue, whenFalse]
  | none => (List.range n).map nth

inductive Op (α : Type) where
  | const (value : α)
  | input (index : Nat) (sample : α)
  | unary (o : UnaryOp)
  | binary (o : BinaryOp)
  | select
  | nary (o : NaryOp)
  | debug (label : Text)
deriving DecidableEq, Hashable

inductive Node (α ι : Type) where
  | const (value : α)
  | input (index : Nat) (sample : α)
  | unary (o : UnaryOp) (x : ι)
  | binary (o : BinaryOp) (x y : ι)
  | select (c t e : ι)
  | nary (o : NaryOp) (xs : List ι)
  | debug (label : Text) (x : ι)
deriving DecidableEq, Hashable

namespace Op

def isTerminal : Op α → Bool
  | const _ | input _ _ => true
  | _ => false

/-- How many operands an operator takes; `none` where any number will do. -/
def arity? : Op α → Option Nat
  | const _ | input _ _ => some 0
  | unary _ | debug _ => some 1
  | binary _ => some 2
  | select => some 3
  | nary _ => none

def roles (o : Op α) (n : Nat) : List Role := Role.slots o.arity? n

/-- The node with the given operands, where their number is right. -/
def node? : Op α → List ι → Option (Node α ι)
  | const v, [] => some (.const v)
  | input i s, [] => some (.input i s)
  | unary o, [x] => some (.unary o x)
  | binary o, [x, y] => some (.binary o x y)
  | select, [c, t, e] => some (.select c t e)
  | nary o, xs => some (.nary o xs)
  | debug l, [x] => some (.debug l x)
  | _, _ => none

end Op

namespace Node

def op : Node α ι → Op α
  | const v => .const v
  | input i s => .input i s
  | unary o _ => .unary o
  | binary o _ _ => .binary o
  | select _ _ _ => .select
  | nary o _ => .nary o
  | debug l _ => .debug l

def operands : Node α ι → List ι
  | const _ | input _ _ => []
  | unary _ x | debug _ x => [x]
  | binary _ x y => [x, y]
  | select c t e => [c, t, e]
  | nary _ xs => xs

def map (f : ι → κ) : Node α ι → Node α κ
  | const v => .const v
  | input i s => .input i s
  | unary o x => .unary o (f x)
  | binary o x y => .binary o (f x) (f y)
  | select c t e => .select (f c) (f t) (f e)
  | nary o xs => .nary o (xs.map f)
  | debug l x => .debug l (f x)

def mapM {m : Type → Type} [Monad m] (f : ι → m κ) : Node α ι → m (Node α κ)
  | const v => return .const v
  | input i s => return .input i s
  | unary o x => return .unary o (← f x)
  | binary o x y => return .binary o (← f x) (← f y)
  | select c t e => return .select (← f c) (← f t) (← f e)
  | nary o xs => return .nary o (← xs.mapM f)
  | debug l x => return .debug l (← f x)

def convertM {β : Type} {m : Type → Type} [Monad m] (f : α → m β) : Node α ι → m (Node β ι)
  | const v => return .const (← f v)
  | input i s => return .input i (← f s)
  | unary o x => return .unary o x
  | binary o x y => return .binary o x y
  | select c t e => return .select c t e
  | nary o xs => return .nary o xs
  | debug l x => return .debug l x

def edges (n : Node α ι) : List (ι × Role) :=
  n.operands.zip (n.op.roles n.operands.length)

/-- The value of a node whose operands are numbers; an input beyond `xs` has its sample value. -/
def value (R : Rules α) (xs : Array α) : Node α α → α
  | const v => v
  | input i s => xs[i]?.getD s
  | unary o x => R.unary o x
  | binary o x y => R.binary o x y
  | select c t e => if R.truthy c then t else e
  | nary o vs => R.nary o vs
  | debug _ x => x

/-- What each operand of a node receives when the node has value `y` and adjoint `a`. -/
def shares (C : Calculus α) (y a : α) : Node α α → List α
  | const _ | input _ _ => []
  | unary o x => [C.adjoints.mul a (C.partials.unary o x y)]
  | binary o x z =>
    let p := C.partials.binary o x z y
    [C.adjoints.mul a p.1, C.adjoints.mul a p.2]
  | select c _ _ =>
    let (t, e) := if C.rules.truthy c then (C.adjoints.one, C.adjoints.zero)
      else (C.adjoints.zero, C.adjoints.one)
    [C.adjoints.mul a C.adjoints.zero, C.adjoints.mul a t, C.adjoints.mul a e]
  | nary o vs => (C.partials.nary o vs y).map (C.adjoints.mul a)
  | debug _ _ => [a]

end Node
end ScalarGraph
