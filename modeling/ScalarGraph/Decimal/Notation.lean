import ScalarGraph.Decimal.Shortest
import ScalarGraph.Text

/-! # Written numbers

`written` is the general notation: the fewest digits that read back, positional
while the first digit stands at `10 ^ 15` or below and at `10 ^ -4` or above.
`scientific` and `fixed` round the exact value, a half to the even digit.
-/
namespace ScalarGraph.Decimal
open Binary64

def zeros (n : Nat) : Text := Text.fill '0' n

/-- The digits of `n`, at least `width` of them. -/
def digitsOf (width n : Nat) : Text :=
  let ds := Text.ofNat n
  zeros (width - ds.length) ++ ds

/-- The exponent with its sign and at least two digits. -/
def exponentText (e : Int) : Text :=
  Text.ofString (if e < 0 then "e-" else "e+") ++ digitsOf 2 e.natAbs

def pointed : Text → Text
  | [] => []
  | [d] => [d]
  | d :: ds => d :: .ofChar '.' :: ds

def positional (ds : Text) (before : Int) : Text :=
  if before ≤ 0 then Text.ofString "0." ++ zeros (-before).toNat ++ ds
  else if ds.length ≤ before.toNat then ds ++ zeros (before.toNat - ds.length) ++ Text.ofString ".0"
  else ds.take before.toNat ++ .ofChar '.' :: ds.drop before.toNat

def magnitudeText (d : Scaled) : Text :=
  let ds := Text.ofNat d.digits
  let before : Int := ds.length + d.exponent
  if -4 < before ∧ before ≤ 16 then positional ds before
  else pointed ds ++ exponentText (before - 1)

def signText (x : Float) : Text := Text.ofString (if isNegative x then "-" else "")

/-- The text of what is not a finite number. -/
def special? (x : Float) : Option Text :=
  if x.isNaN then some (Text.ofString "nan")
  else if x.isInf then some (signText x ++ Text.ofString "inf")
  else none

def written (x : Float) : Text :=
  (special? x).getD
    (signText x ++ if isZero x then Text.ofString "0.0" else magnitudeText (shortest x))

/-- A positive finite number rounded to one digit before the point and `places` after it. -/
def roundedAt (places : Nat) (x : Float) : Scaled :=
  let r := ratio x
  let e := magnitude r.1 r.2 - 1 - places
  let p := powTen e
  let d := roundDiv (r.1 * p.2) (r.2 * p.1)
  if d = Nat.pow 10 (places + 1) then ⟨Nat.pow 10 places, e + 1⟩ else ⟨d, e⟩

def scientific (places : Nat) (x : Float) : Text :=
  (special? x).getD <| signText x ++
    if isZero x then pointed (zeros (places + 1)) ++ exponentText 0
    else
      let d := roundedAt places x
      pointed (Text.ofNat d.digits) ++ exponentText (d.exponent + places)

def fixed (places : Nat) (x : Float) : Text :=
  (special? x).getD <| signText x ++
    let r := ratio x
    let ds := digitsOf (places + 1) (roundDiv (r.1 * Nat.pow 10 places) r.2)
    if places = 0 then ds
    else ds.take (ds.length - places) ++ .ofChar '.' :: ds.drop (ds.length - places)

/-- Digits from the right in groups of three. -/
def groups : Text → Text
  | a :: b :: c :: d :: rest => a :: b :: c :: .ofChar ',' :: groups (d :: rest)
  | ds => ds

def grouped (n : Nat) : Text := (groups (Text.ofNat n).reverse).reverse

end ScalarGraph.Decimal
