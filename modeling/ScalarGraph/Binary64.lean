/-! # Binary floating-point numbers, taken apart and put together

A finite number is a sign and a magnitude `significand * 2 ^ exponent`. In the
other direction every quotient of natural numbers has a nearest number, of two
equally near ones the one with the even significand.
-/
namespace ScalarGraph.Binary64

def isNegative (x : Float) : Bool := x.toBits >>> 63 == 1

def biasedExponent (x : Float) : Nat := (x.toBits >>> 52 &&& 0x7ff).toNat

def fraction (x : Float) : Nat := (x.toBits &&& 0xfffffffffffff).toNat

/-- What the leading bit of a normal significand stands for, `2 ^ 52`. -/
def hiddenBit : Nat := 4503599627370496

def significand (x : Float) : Nat :=
  if biasedExponent x = 0 then fraction x else hiddenBit + fraction x

def exponent (x : Float) : Int := (max (biasedExponent x) 1 : Nat) - 1075

def isZero (x : Float) : Bool := x == 0.0

def infinity : Float := Float.ofBits 0x7ff0000000000000

def notANumber : Float := Float.ofBits 0x7ff8000000000000

def signed (negative : Bool) (x : Float) : Float := if negative then -x else x

/-- `2 ^ e` as numerator and denominator. -/
def powTwo (e : Int) : Nat × Nat := (Nat.pow 2 e.toNat, Nat.pow 2 (-e).toNat)

def powTen (e : Int) : Nat × Nat := (Nat.pow 10 e.toNat, Nat.pow 10 (-e).toNat)

/-- The magnitude of a finite number as numerator and denominator. -/
def ratio (x : Float) : Nat × Nat :=
  let p := powTwo (exponent x)
  (significand x * p.1, p.2)

/-- The natural number nearest to a quotient, of two the even one. -/
def roundDiv (num den : Nat) : Nat :=
  let q := num / den
  let r := num % den
  if 2 * r < den then q else if den < 2 * r then q + 1 else q + q % 2

/-- The number nearest to `num / den`, infinite from half a unit beyond the largest one. -/
def ofRatio (num den : Nat) : Float :=
  if num = 0 ∨ den = 0 then 0.0
  else
    let estimate : Int := (num.log2 : Int) - den.log2 - 52
    let fits (e : Int) : Bool :=
      let p := powTwo e
      num * p.2 < 2 * hiddenBit * den * p.1
    let e : Int := max (if fits (estimate - 1) then estimate - 1 else estimate) (-1074)
    let p := powTwo e
    let code := (e + 1074).toNat * hiddenBit + roundDiv (num * p.2) (den * p.1)
    if 0x7ff0000000000000 ≤ code then infinity else Float.ofBits code.toUInt64

/-- The number nearest to `m * 10 ^ e`. Where the bit length of `m` tells that it is too small or too
large the power is not computed. -/
def ofDecimal (m : Nat) (e : Int) : Float :=
  if m = 0 ∨ (m.log2 / 3 + 1 : Nat) + e < -400 then 0.0
  else if 400 < (m.log2 * 3 / 10 : Nat) + e then infinity
  else
    let p := powTen e
    ofRatio (m * p.1) p.2

/-- The number nearest to an integer; `none` beyond the largest number. -/
def ofInt? (i : Int) : Option Float :=
  let x := ofRatio i.natAbs 1
  if x == infinity then none else some (signed (i < 0) x)

/-- The integer that a finite number is, where it is one. -/
def toInt? (x : Float) : Option Int :=
  if !x.isFinite then none
  else
    let r := ratio x
    if r.1 % r.2 = 0 then some (if isNegative x then -(r.1 / r.2 : Nat) else (r.1 / r.2 : Nat))
    else none

/-- What is left of `x` when the positive number `y` is taken from it as often as possible. -/
def remainder (x y : Float) : Float :=
  if y.isNaN then y
  else
    let p := ratio x
    let q := ratio y
    ofRatio (p.1 * q.2 % (q.1 * p.2)) (p.2 * q.2)

instance hashable : Hashable Float := ⟨fun x => hash x.toBits⟩

end ScalarGraph.Binary64
