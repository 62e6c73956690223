import ScalarGraph.Decimal.Notation

/-! # Numbers in a row

The numbers of a row have at most eight digits after their points, and blanks on
both sides bring them to one width. A row with very large or very small numbers,
or with numbers far apart, is written with exponents.
-/
namespace ScalarGraph.Decimal
open Binary64

/-- A row has at most so many digits after a point. -/
def rowPlaces : Nat := 8

structure Cell where
  whole : Text
  part : Text
  exponent : Int := 0

def withoutZeros (ds : Text) : Text := (ds.reverse.dropWhile (·.is '0')).reverse

/-- Whether a row of finite numbers is written with exponents. -/
def isSpread (xs : List Float) : Bool :=
  match (xs.map Float.abs).filter fun x => !isZero x with
  | [] => false
  | m :: ms =>
    let most := ms.foldl (fun a b => if a < b then b else a) m
    let least := ms.foldl (fun a b => if b < a then b else a) m
    1e8 ≤ most || least < 1e-4 || 1000.0 < most / least

def Cell.positional (x : Float) : Cell :=
  let s := shortest x.abs
  let r := ratio x
  let n :=
    if isZero x then 0
    else if -(rowPlaces : Int) ≤ s.exponent then s.digits * Nat.pow 10 (s.exponent + rowPlaces).toNat
    else roundDiv (r.1 * Nat.pow 10 rowPlaces) r.2
  let unit := Nat.pow 10 rowPlaces
  ⟨signText x ++ Text.ofNat (n / unit), withoutZeros (digitsOf rowPlaces (n % unit)), 0⟩

/-- A finite number with one digit before its point and no more digits than it needs. -/
def Cell.scientific (x : Float) : Cell :=
  let s := if isZero x then ⟨0, 0⟩ else shortest x.abs
  let d := if (Text.ofNat s.digits).length ≤ rowPlaces + 1 then s else roundedAt rowPlaces x.abs
  let ds := Text.ofNat d.digits
  ⟨signText x ++ ds.take 1, withoutZeros (ds.drop 1), d.exponent + ds.length - 1⟩

/-- A finite number with one digit before its point and `places` digits of its exact value
after it. -/
def Cell.scientificTo (places : Nat) (x : Float) : Cell :=
  let d := if isZero x then ⟨0, -places⟩ else roundedAt places x.abs
  let ds := digitsOf (places + 1) d.digits
  ⟨signText x ++ ds.take 1, ds.drop 1, d.exponent + places⟩

def widest (ts : List Text) : Nat := (ts.map List.length).foldl max 0

/-- The numbers of a row, brought to one width. With exponents they all have as many digits as
the one that needs most of them. -/
def row (xs : List Float) : List Text :=
  let finite := xs.filter Float.isFinite
  let spread := isSpread finite
  let cells := finite.map (if spread then Cell.scientific else Cell.positional)
  let before := widest (cells.map (·.whole))
  let after := widest (cells.map (·.part))
  let digits := widest (cells.map fun c => digitsOf 2 c.exponent.natAbs)
  let mark (c : Cell) : Text :=
    Text.ofString (if c.exponent < 0 then "e-" else "e+") ++ digitsOf digits c.exponent.natAbs
  let tail (c : Cell) : Text := if spread then c.part ++ mark c else c.part.padRight after
  let behind := if spread then after + 2 + digits else after
  let names := xs.filterMap special?
  let width := if names.isEmpty then before + 1 + behind else max (before + 1 + behind) (widest names)
  let cell := if spread then Cell.scientificTo after else Cell.positional
  xs.map fun x =>
    ((special? x).getD ((cell x).whole ++ .ofChar '.' :: tail (cell x))).padLeft width

end ScalarGraph.Decimal
