import ScalarGraph.Binary64
import ScalarGraph.Rules

/-! # Elementary operations on machine numbers

Domain errors give NaN or an infinity. A maximum or minimum with NaN is NaN, and
the sign of NaN is NaN.
-/
namespace ScalarGraph.Binary64

def trunc (x : Float) : Float := if x < 0.0 then x.ceil else x.floor

/-- The nearest whole number to a magnitude, of two equally near ones the even. -/
def rintMagnitude (x : Float) : Float :=
  let below := x.floor
  let rest := x - below
  if rest < 0.5 then below
  else if 0.5 < rest then below + 1.0
  else if (below / 2.0).floor * 2.0 == below then below else below + 1.0

def rint (x : Float) : Float := signed (isNegative x) (rintMagnitude x.abs)

def sign (x : Float) : Float :=
  if 0.0 < x then 1.0 else if x < 0.0 then -1.0 else if x == 0.0 then 0.0 else x

def maximum (a b : Float) : Float := if a.isNaN || b ≤ a then a else b

def minimum (a b : Float) : Float := if a.isNaN || a ≤ b then a else b

/-- `exp x - 1`. The rounding of `exp x` is undone by the logarithm of the rounded value. -/
def expm1 (x : Float) : Float :=
  let u := x.exp
  if u == 1.0 then x
  else if u - 1.0 == -1.0 then -1.0
  else if !u.isFinite then u
  else (u - 1.0) * (x / u.log)

/-- `log (1 + x)`. The rounding of `1 + x` is undone by the quotient of what was added. -/
def log1p (x : Float) : Float :=
  let u := 1.0 + x
  if u == 1.0 then x
  else if !u.isFinite then u.log
  else u.log * (x / (u - 1.0))

def elementary : Elementary Float where
  zero := 0.0
  one := 1.0
  two := 2.0
  three := 3.0
  half := 0.5
  guard := 1e-10
  lnTwo := 0.6931471805599453
  lnTen := 2.302585092994046
  top := infinity
  bottom := -infinity
  neg := Neg.neg
  add := (· + ·)
  sub := (· - ·)
  mul := (· * ·)
  div := (· / ·)
  pow := Float.pow
  atan2 := Float.atan2
  max := maximum
  min := minimum
  abs := Float.abs
  sign := sign
  floor := Float.floor
  ceil := Float.ceil
  trunc := trunc
  sqrt := Float.sqrt
  cbrt := Float.cbrt
  exp := Float.exp
  expm1 := expm1
  ln := Float.log
  log2 := Float.log2
  log10 := Float.log10
  log1p := log1p
  sin := Float.sin
  cos := Float.cos
  tan := Float.tan
  asin := Float.asin
  acos := Float.acos
  atan := Float.atan
  sinh := Float.sinh
  cosh := Float.cosh
  tanh := Float.tanh
  asinh := Float.asinh
  acosh := Float.acosh
  atanh := Float.atanh
  lt a b := a < b
  le a b := a ≤ b
  eq a b := a == b
  isNaN := Float.isNaN
  isFinite := Float.isFinite

def calculus : Calculus Float := elementary.calculus

end ScalarGraph.Binary64
