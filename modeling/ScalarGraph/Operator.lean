import ScalarGraph.Text

/-! # Operators

The closed sets of operators with the names they carry in documents and messages.
The order of each list is the order in which a random operator is drawn.
-/
namespace ScalarGraph

inductive UnaryOp where
  | neg | squared | sqrt | inverse | abs
  | acos | acosh | asin | asinh | atan | atanh
  | cbrt | ceil | cos | cosh | exp | expm1 | floor
  | ln | log2 | log10 | log1p | round | sign
  | sin | sinh | tan | tanh | trunc
deriving DecidableEq, Hashable

inductive BinaryOp where
  | add | sub | mul | div | max | min | atan2 | pow | gt | lt | eq | and | or
deriving DecidableEq, Hashable

inductive NaryOp where
  | sum | max | min
deriving DecidableEq, Hashable

namespace UnaryOp

def all : List UnaryOp :=
  [neg, squared, sqrt, inverse, abs, acos, acosh, asin, asinh, atan, atanh, cbrt, ceil, cos, cosh,
   exp, expm1, floor, ln, log2, log10, log1p, round, sign, sin, sinh, tan, tanh, trunc]

def name : UnaryOp → String
  | neg => "neg" | squared => "squared" | sqrt => "sqrt" | inverse => "inverse" | abs => "abs"
  | acos => "acos" | acosh => "acosh" | asin => "asin" | asinh => "asinh" | atan => "atan"
  | atanh => "atanh" | cbrt => "cbrt" | ceil => "ceil" | cos => "cos" | cosh => "cosh"
  | exp => "exp" | expm1 => "expm1" | floor => "floor" | ln => "ln" | log2 => "log2"
  | log10 => "log10" | log1p => "log1p" | round => "round" | sign => "sign" | sin => "sin"
  | sinh => "sinh" | tan => "tan" | tanh => "tanh" | trunc => "trunc"

def label (o : UnaryOp) : Text := Text.ofString o.name

def named? (t : Text) : Option UnaryOp := all.find? fun o => o.label = t

end UnaryOp

namespace BinaryOp

def all : List BinaryOp := [add, sub, mul, div, max, min, atan2, pow, gt, lt, eq, and, or]

def name : BinaryOp → String
  | add => "+" | sub => "-" | mul => "*" | div => "/" | max => "max" | min => "min"
  | atan2 => "atan2" | pow => "pow" | gt => ">" | lt => "<" | eq => "==" | and => "and" | or => "or"

def label (o : BinaryOp) : Text := Text.ofString o.name

def named? (t : Text) : Option BinaryOp := all.find? fun o => o.label = t

end BinaryOp

namespace NaryOp

def all : List NaryOp := [sum, max, min]

def name : NaryOp → String
  | sum => "addN" | max => "maxN" | min => "minN"

def label (o : NaryOp) : Text := Text.ofString o.name

def named? (t : Text) : Option NaryOp := all.find? fun o => o.label = t

end NaryOp
end ScalarGraph
