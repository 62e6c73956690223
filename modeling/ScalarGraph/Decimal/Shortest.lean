import ScalarGraph.Binary64

/-! # The fewest digits that read back

The numbers nearest to a binary number fill an interval around it, whose ends
belong to it when the significand is even. The digits of a number are those of
the coarsest decimal grid with a point in the interval; of two such points the
nearer counts, and of two equally near ones the even.
-/
namespace ScalarGraph.Decimal

/-- A positive decimal number `digits * 10 ^ exponent`. -/
structure Scaled where
  digits : Nat
  exponent : Int

def Scaled.normal : Nat → Scaled → Scaled
  | 0, d => d
  | fuel + 1, d =>
    if d.digits ≠ 0 ∧ d.digits % 10 = 0 then normal fuel ⟨d.digits / 10, d.exponent + 1⟩ else d

/-- The least `e` from `start` on, up to `fuel` steps, with `num / den < 10 ^ e`. -/
def boundFrom (num den : Nat) : Nat → Int → Int
  | 0, e => e
  | fuel + 1, e =>
    let p := Binary64.powTen e
    if num * p.2 < den * p.1 then e else boundFrom num den fuel (e + 1)

/-- The `e` with `10 ^ (e - 1) ≤ num / den < 10 ^ e`. -/
def magnitude (num den : Nat) : Int :=
  boundFrom num den 4 (((num.log2 : Int) - den.log2 - 1) * 30103 / 100000)

/-- The interval that reads back as a number, in quarters of its last place. -/
structure Interval where
  low : Nat
  middle : Nat
  high : Nat
  closed : Bool

def Interval.around (x : Float) : Interval :=
  let m := Binary64.significand x
  let narrow := Binary64.fraction x = 0 ∧ 1 < Binary64.biasedExponent x
  { low := 4 * m - (if narrow then 1 else 2), middle := 4 * m, high := 4 * m + 2,
    closed := m % 2 = 0 }

/-- Whether the interval holds `c` units of `num / den` quarters each. -/
def Interval.holds (i : Interval) (num den c : Nat) : Bool :=
  if i.closed then i.low * den ≤ c * num && c * num ≤ i.high * den
  else i.low * den < c * num && c * num < i.high * den

/-- The point of a grid with spacing `num / den` quarters that stands for the interval. -/
def Interval.pick? (i : Interval) (num den : Nat) : Option Nat :=
  let c := i.middle * den / num
  match i.holds num den c, i.holds num den (c + 1) with
  | false, false => none
  | true, false => some c
  | false, true => some (c + 1)
  | true, true =>
    let below := i.middle * den - c * num
    let above := (c + 1) * num - i.middle * den
    some (if below < above then c else if above < below then c + 1 else c + c % 2)

def Interval.search (i : Interval) (bound : Int) (unit : Nat × Nat) : Nat → Int → Scaled
  | 0, e => ⟨0, e⟩
  | fuel + 1, e =>
    let p := Binary64.powTen e
    match i.pick? (p.1 * unit.2) (p.2 * unit.1) with
    | some c => Scaled.normal 20 ⟨c, e⟩
    | none => i.search bound unit fuel (e - 1)

/-- The shortest decimal that reads back as a positive finite number. -/
def shortest (x : Float) : Scaled :=
  let r := Binary64.ratio x
  let bound := magnitude r.1 r.2
  (Interval.around x).search bound (Binary64.powTwo (Binary64.exponent x - 2)) 18 (bound - 1)

end ScalarGraph.Decimal
