import ScalarGraph.Decimal.Notation
import ScalarGraph.Fault
import ScalarGraph.Node

/-! # Literals

A literal is what a caller or a document writes for an operator: its name may be
unknown and an input may have a negative index. Messages quote literals.
-/
namespace ScalarGraph
variable {α ι : Type}

/-- Numbers that have a text in messages. -/
class Written (α : Type) where
  written : α → Text

instance writtenFloat : Written Float := ⟨Decimal.written⟩

export Written (written)

inductive Literal (α : Type) where
  | const (value : α)
  | input (index : Int) (sample : α)
  | unary (name : Text)
  | binary (name : Text)
  | select
  | nary (name : Text)
  | debug (label : Text)

namespace Literal

def kind : Literal α → String
  | const _ => "Const"
  | input _ _ => "Input"
  | unary _ => "Unary"
  | binary _ => "Binary"
  | select => "Ternary"
  | nary _ => "Nary"
  | debug _ => "Debug"

def isTerminal : Literal α → Bool
  | const _ | input _ _ => true
  | _ => false

def arity? : Literal α → Option Nat
  | const _ | input _ _ => some 0
  | unary _ | debug _ => some 1
  | binary _ => some 2
  | select => some 3
  | nary _ => none

def roles (l : Literal α) (n : Nat) : List Role := Role.slots l.arity? n

def fields [Written α] : Literal α → List (String × Text)
  | const v => [("value", written v)]
  | input i s => [("index", Text.ofInt i), ("val", written s)]
  | unary n => [("unop", n.quoted)]
  | binary n => [("binop", n.quoted)]
  | select => []
  | nary n => [("op", n.quoted)]
  | debug l => [("info", l.quoted)]

end Literal

def Text.record (kind : String) (fields : List (String × Text)) : Text :=
  Text.ofString kind ++ Text.ofString "(" ++
    Text.join (Text.ofString ", ") (fields.map fun f => Text.ofString f.1 ++ Text.ofString "=" ++ f.2) ++
    Text.ofString ")"

namespace Literal

def shown [Written α] (l : Literal α) : Text := Text.record l.kind l.fields

def op? : Literal α → Except Violation (Op α)
  | const v => .ok (.const v)
  | input i s => if i < 0 then .error (.negativeInput i) else .ok (.input i.toNat s)
  | unary n =>
    match UnaryOp.named? n with
    | some o => .ok (.unary o)
    | none => .error (.unknownOperator .unary n.quoted)
  | binary n =>
    match BinaryOp.named? n with
    | some o => .ok (.binary o)
    | none => .error (.unknownOperator .binary n.quoted)
  | select => .ok .select
  | nary n =>
    match NaryOp.named? n with
    | some o => .ok (.nary o)
    | none => .error (.unknownOperator .nary n.quoted)
  | debug l => .ok (.debug l)

def node? [Written α] (l : Literal α) (xs : List ι) : Except Violation (Node α ι) := do
  let o ← l.op?
  match o.node? xs with
  | some n => return n
  | none => throw (.operandCount l.kind l.shown (l.arity?.getD 0) xs.length)

end Literal

namespace Op

def literal : Op α → Literal α
  | const v => .const v
  | input i s => .input i s
  | unary o => .unary o.label
  | binary o => .binary o.label
  | select => .select
  | nary o => .nary o.label
  | debug l => .debug l

def shown [Written α] (o : Op α) : Text := o.literal.shown

/-- The short name of an operator in listings. -/
def shortName : Op α → Text
  | const _ => Text.ofString "const"
  | input _ _ => Text.ofString "input"
  | unary o => o.label
  | binary o => o.label
  | select => Text.ofString "ifCond"
  | nary o => o.label
  | debug _ => Text.ofString "debug"

end Op
end ScalarGraph
