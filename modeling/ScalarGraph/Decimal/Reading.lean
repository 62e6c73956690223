import ScalarGraph.Binary64
import ScalarGraph.Text.Digit

/-! # Numerals that are read

A numeral may have blanks around it, a sign, any decimal digits and single
underscores between digits. A real numeral may have a fraction and an exponent
or spell out an infinity or that it is not a number.
-/
namespace ScalarGraph.Decimal

/-- Integers are read up to this many digits. -/
def digitLimit : Nat := 4300

/-- Whether each underscore stands between two digits. -/
def underscoresFit (afterDigit : Bool) : Text → Bool
  | [] => true
  | c :: rest =>
    if c.is '_' then
      afterDigit && (rest.head?.bind CodePoint.digit?).isSome && underscoresFit false rest
    else underscoresFit c.digit?.isSome rest

def withoutUnderscores (t : Text) : Option Text :=
  if underscoresFit false t then some (t.filter fun c => !c.is '_') else none

def spanDigits (t : Text) : List Nat × Text :=
  ((t.takeWhile (·.digit?.isSome)).filterMap CodePoint.digit?, t.dropWhile (·.digit?.isSome))

def ofDigits (ds : List Nat) : Nat := ds.foldl (fun n d => 10 * n + d) 0

def spanSign : Text → Bool × Text
  | c :: rest => if c.is '-' then (true, rest) else if c.is '+' then (false, rest) else (false, c :: rest)
  | [] => (false, [])

def natural? (t : Text) : Option Nat :=
  match spanDigits t with
  | (d :: ds, []) => if digitLimit < (d :: ds).length then none else some (ofDigits (d :: ds))
  | _ => none

def integer? (t : Text) : Option Int := do
  let u ← withoutUnderscores (← t.numeral?)
  let (negative, rest) := spanSign u
  let n ← natural? rest
  return if negative then -n else n

/-- The exponent that ends a numeral, 0 where the numeral ends before it. -/
def exponent? : Text → Option Int
  | [] => some 0
  | c :: rest =>
    if c.isOneOf ['e', 'E'] then
      let (negative, rest) := spanSign rest
      match spanDigits rest with
      | (d :: ds, []) => some (if negative then -(ofDigits (d :: ds) : Int) else ofDigits (d :: ds))
      | _ => none
    else none

def fraction : Text → List Nat × Text
  | c :: rest => if c.is '.' then spanDigits rest else ([], c :: rest)
  | [] => ([], [])

/-- The magnitude of a numeral in digits. -/
def positional? (t : Text) : Option Float := do
  let (whole, rest) := spanDigits t
  let (part, rest) := fraction rest
  if whole.isEmpty && part.isEmpty then none
  let e ← exponent? rest
  return Binary64.ofDecimal (ofDigits (whole ++ part)) (e - part.length)

def lowerCase (c : CodePoint) : CodePoint :=
  if 65 ≤ c.value ∧ c.value ≤ 90 then .ofNat (c.value + 32) else c

def named? (t : Text) : Option Float :=
  let u := t.map lowerCase
  if u = Text.ofString "inf" ∨ u = Text.ofString "infinity" then some Binary64.infinity
  else if u = Text.ofString "nan" then some Binary64.notANumber
  else none

def real? (t : Text) : Option Float := do
  let u ← withoutUnderscores (← t.numeral?)
  let (negative, rest) := spanSign u
  let x ← (named? rest).or (positional? rest)
  return Binary64.signed negative x

end ScalarGraph.Decimal
