import ScalarGraph.Operator

/-! # Forward rules and local partials

Every operator has a forward rule and the partials of that rule in each operand.
Both are rows of a table over a few elementary operations, so one table serves
machine numbers, rationals, reals and dual numbers alike. Constant folding and
evaluation use the same forward rules.

Denominators of `/` and `inverse` carry a small guard, and the partials are those
of the guarded rule. Conditions are true when they are not zero and not NaN.
-/
namespace ScalarGraph
variable {α : Type}

/-- The operations that the rows of the table are made of. -/
structure Elementary (α : Type) where
  zero : α
  one : α
  two : α
  three : α
  half : α
  guard : α
  lnTwo : α
  lnTen : α
  top : α
  bottom : α
  neg : α → α
  add : α → α → α
  sub : α → α → α
  mul : α → α → α
  div : α → α → α
  pow : α → α → α
  atan2 : α → α → α
  max : α → α → α
  min : α → α → α
  abs : α → α
  sign : α → α
  floor : α → α
  ceil : α → α
  trunc : α → α
  sqrt : α → α
  cbrt : α → α
  exp : α → α
  expm1 : α → α
  ln : α → α
  log2 : α → α
  log10 : α → α
  log1p : α → α
  sin : α → α
  cos : α → α
  tan : α → α
  asin : α → α
  acos : α → α
  atan : α → α
  sinh : α → α
  cosh : α → α
  tanh : α → α
  asinh : α → α
  acosh : α → α
  atanh : α → α
  lt : α → α → Bool
  le : α → α → Bool
  eq : α → α → Bool
  isNaN : α → Bool
  isFinite : α → Bool

/-- The value of each operator at the values of its operands. -/
structure Rules (α : Type) where
  unary : UnaryOp → α → α
  binary : BinaryOp → α → α → α
  nary : NaryOp → List α → α
  truthy : α → Bool

/-- The partials of each operator, given the values of its operands and its own. -/
structure Partials (α : Type) where
  unary : UnaryOp → α → α → α
  binary : BinaryOp → α → α → α → α × α
  nary : NaryOp → List α → α → List α

/-- What the reverse sweep does with adjoints. -/
structure Adjoints (α : Type) where
  zero : α
  one : α
  add : α → α → α
  mul : α → α → α
  isZero : α → Bool

/-- All that an evaluator needs to know of its numbers. -/
structure Calculus (α : Type) where
  rules : Rules α
  partials : Partials α
  adjoints : Adjoints α
  isFinite : α → Bool

namespace Elementary
variable (E : Elementary α)

def truthy (x : α) : Bool := !E.eq x E.zero && !E.isNaN x

def truth (b : Bool) : α := if b then E.one else E.zero

def unaryValue : UnaryOp → α → α
  | .neg, x => E.neg x
  | .squared, x => E.mul x x
  | .sqrt, x => E.sqrt x
  | .inverse, x => E.div E.one (E.add x E.guard)
  | .abs, x => E.abs x
  | .acos, x => E.acos x
  | .acosh, x => E.acosh x
  | .asin, x => E.asin x
  | .asinh, x => E.asinh x
  | .atan, x => E.atan x
  | .atanh, x => E.atanh x
  | .cbrt, x => E.cbrt x
  | .ceil, x => E.ceil x
  | .cos, x => E.cos x
  | .cosh, x => E.cosh x
  | .exp, x => E.exp x
  | .expm1, x => E.expm1 x
  | .floor, x => E.floor x
  | .ln, x => E.ln x
  | .log2, x => E.log2 x
  | .log10, x => E.log10 x
  | .log1p, x => E.log1p x
  | .round, x => E.floor (E.add x E.half)
  | .sign, x => E.sign x
  | .sin, x => E.sin x
  | .sinh, x => E.sinh x
  | .tan, x => E.tan x
  | .tanh, x => E.tanh x
  | .trunc, x => E.trunc x

/-- The derivative of a unary rule at `x`, where its value is `y`. -/
def unaryPartial : UnaryOp → α → α → α
  | .neg, _, _ => E.neg E.one
  | .squared, x, _ => E.mul E.two x
  | .sqrt, _, y => E.div E.half y
  | .inverse, _, y => E.neg (E.mul y y)
  | .abs, x, _ => E.sign x
  | .acos, x, _ => E.div (E.neg E.one) (E.sqrt (E.sub E.one (E.mul x x)))
  | .acosh, x, _ => E.div E.one (E.sqrt (E.sub (E.mul x x) E.one))
  | .asin, x, _ => E.div E.one (E.sqrt (E.sub E.one (E.mul x x)))
  | .asinh, x, _ => E.div E.one (E.sqrt (E.add (E.mul x x) E.one))
  | .atan, x, _ => E.div E.one (E.add E.one (E.mul x x))
  | .atanh, x, _ => E.div E.one (E.sub E.one (E.mul x x))
  | .cbrt, _, y => E.div E.one (E.mul (E.mul E.three y) y)
  | .cos, x, _ => E.neg (E.sin x)
  | .cosh, x, _ => E.sinh x
  | .exp, _, y => y
  | .expm1, x, _ => E.exp x
  | .ln, x, _ => E.div E.one x
  | .log2, x, _ => E.div E.one (E.mul x E.lnTwo)
  | .log10, x, _ => E.div E.one (E.mul x E.lnTen)
  | .log1p, x, _ => E.div E.one (E.add E.one x)
  | .sin, x, _ => E.cos x
  | .sinh, x, _ => E.cosh x
  | .tan, x, _ => E.div E.one (E.pow (E.cos x) E.two)
  | .tanh, _, y => E.sub E.one (E.mul y y)
  | .ceil, _, _ | .floor, _, _ | .round, _, _ | .sign, _, _ | .trunc, _, _ => E.zero

def binaryValue : BinaryOp → α → α → α
  | .add, a, b => E.add a b
  | .sub, a, b => E.sub a b
  | .mul, a, b => E.mul a b
  | .div, a, b => E.div a (E.add b E.guard)
  | .max, a, b => E.max a b
  | .min, a, b => E.min a b
  | .atan2, a, b => E.atan2 a b
  | .pow, a, b => E.pow a b
  | .gt, a, b => E.truth (E.lt b a)
  | .lt, a, b => E.truth (E.lt a b)
  | .eq, a, b => E.truth (E.eq a b)
  | .and, a, b => E.truth (E.truthy a && E.truthy b)
  | .or, a, b => E.truth (E.truthy a || E.truthy b)

/-- The partials of a binary rule at `a` and `b`, where its value is `y`. The whole of a
maximum or minimum goes to the operand that attains it, of two equal ones to the left. -/
def binaryPartial : BinaryOp → α → α → α → α × α
  | .add, _, _, _ => (E.one, E.one)
  | .sub, _, _, _ => (E.one, E.neg E.one)
  | .mul, a, b, _ => (b, a)
  | .div, a, b, _ =>
    let d := E.add b E.guard
    (E.div E.one d, E.div (E.neg a) (E.mul d d))
  | .max, a, b, _ => if E.le b a then (E.one, E.zero) else (E.zero, E.one)
  | .min, a, b, _ => if E.le a b then (E.one, E.zero) else (E.zero, E.one)
  | .atan2, a, b, _ =>
    let r := E.add (E.mul a a) (E.mul b b)
    (E.div b r, E.div (E.neg a) r)
  | .pow, a, b, y =>
    (E.mul b (E.pow a (E.sub b E.one)), if E.lt E.zero a then E.mul y (E.ln a) else E.zero)
  | .gt, _, _, _ | .lt, _, _, _ | .eq, _, _, _ | .and, _, _, _ | .or, _, _, _ => (E.zero, E.zero)

def reduce (pick : α → α → α) (empty : α) : List α → α
  | [] => empty
  | v :: vs => vs.foldl pick v

def naryValue : NaryOp → List α → α
  | .sum => reduce E.add E.zero
  | .max => reduce E.max E.bottom
  | .min => reduce E.min E.top

/-- One for the first value equal to `y`, zero for the others. -/
def firstEqual (y : α) : List α → List α
  | [] => []
  | v :: vs => if E.eq v y then E.one :: vs.map fun _ => E.zero else E.zero :: firstEqual y vs

def naryPartial : NaryOp → List α → α → List α
  | .sum, vs, _ => vs.map fun _ => E.one
  | .max, vs, y => E.firstEqual y vs
  | .min, vs, y => E.firstEqual y vs

def rules : Rules α :=
  { unary := E.unaryValue, binary := E.binaryValue, nary := E.naryValue, truthy := E.truthy }

def partials : Partials α :=
  { unary := E.unaryPartial, binary := E.binaryPartial, nary := E.naryPartial }

def adjoints : Adjoints α :=
  { zero := E.zero, one := E.one, add := E.add, mul := E.mul, isZero := fun a => E.eq a E.zero }

def calculus : Calculus α :=
  { rules := E.rules, partials := E.partials, adjoints := E.adjoints, isFinite := E.isFinite }

end Elementary
end ScalarGraph
