/-! # Texts as lists of code points

Identifiers, labels and operator names come from documents, and a document may
name one half of a surrogate pair alone. A text is therefore a list of code
points, with the surrogates among them, and order is by code point.
-/
namespace ScalarGraph

structure CodePoint where
  value : Nat
  value_lt : value < 0x110000 := by decide
deriving DecidableEq

instance CodePoint.hashable : Hashable CodePoint := ⟨fun c => hash c.value⟩

/-- The code point of a number, or `?` beyond the last one. -/
def CodePoint.ofNat (n : Nat) : CodePoint :=
  if h : n < 0x110000 then ⟨n, h⟩ else { value := 63 }

def CodePoint.ofChar (c : Char) : CodePoint := .ofNat c.toNat

def CodePoint.is (c : CodePoint) (d : Char) : Bool := c.value == d.toNat

def CodePoint.isOneOf (c : CodePoint) (ds : List Char) : Bool := ds.any c.is

def CodePoint.digit? (c : CodePoint) : Option Nat :=
  if 48 ≤ c.value ∧ c.value ≤ 57 then some (c.value - 48) else none

abbrev Text := List CodePoint

namespace Text

def ofString (s : String) : Text := s.toList.map CodePoint.ofChar

instance coeString : Coe String Text := ⟨ofString⟩

/-- The digits of `n` in front of `rest`. -/
def ofNatBefore (n : Nat) (rest : Text) : Text :=
  let digit := CodePoint.ofNat (48 + n % 10)
  if n < 10 then digit :: rest else ofNatBefore (n / 10) (digit :: rest)
termination_by n
decreasing_by omega

def ofNat (n : Nat) : Text := ofNatBefore n []

def ofInt : Int → Text
  | .ofNat n => ofNat n
  | .negSucc n => ofString "-" ++ ofNat (n + 1)

/-- The natural number that a text is the digits of, without zeros in front. -/
def natural? (t : Text) : Option Nat :=
  match t.mapM CodePoint.digit? with
  | some ds =>
    let n := ds.foldl (fun n d => 10 * n + d) 0
    if ofNat n = t then some n else none
  | none => none

/-- Lower-case hexadecimal digits, `width` of them. -/
def ofHex (width n : Nat) : Text :=
  (List.range width).reverse.map fun i =>
    let d := n / Nat.pow 16 i % 16
    .ofNat (if d < 10 then 48 + d else 87 + d)

def join (separator : Text) (parts : List Text) : Text := separator.intercalate parts

def fill (c : Char) (n : Nat) : Text := List.replicate n (.ofChar c)

def padLeft (width : Nat) (t : Text) : Text := fill ' ' (width - t.length) ++ t

def padRight (width : Nat) (t : Text) : Text := t ++ fill ' ' (width - t.length)

/-- Order by code point, a text before its extensions. -/
def atMost : Text → Text → Bool
  | [], _ => true
  | _ :: _, [] => false
  | c :: s, d :: t => c.value < d.value || (c.value == d.value && atMost s t)

def sorted (ts : List Text) : List Text := ts.mergeSort atMost

end Text
end ScalarGraph
