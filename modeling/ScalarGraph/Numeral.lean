import ScalarGraph.Decimal.Reading
import ScalarGraph.Fault
import ScalarGraph.Literal

/-! # Numbers as they are given

A graph that is put together by hand keeps its numbers as they were given, also
what is no number at all. They become machine numbers where the graph is compiled
or replayed.
-/
namespace ScalarGraph

inductive Numeral where
  | int (i : Int)
  | bool (b : Bool)
  | real (x : Float)
  /-- An entry of a vector. -/
  | entry (x : Float)
  /-- A text, which is read as a numeral where a machine number is needed. -/
  | text (t : Text)
  /-- What is no number, as messages quote it. -/
  | other (shown : Text)

namespace Numeral

/-- The machine number nearest to an integer. -/
def ofInt (i : Int) : Except Fault Float :=
  match Binary64.ofInt? i with
  | some x => .ok x
  | none => .error .outOfRange

def ofBool (b : Bool) : Float := if b then 1.0 else 0.0

def toFloat : Numeral → Except Fault Float
  | int i => ofInt i
  | bool b => .ok (ofBool b)
  | real x | entry x => .ok x
  | text t =>
    match Decimal.real? t with
    | some x => .ok x
    | none => .error .badValue
  | other _ => .error .wrongType

def machine : Numeral → Except Fault Float
  | real x | entry x => .ok x
  | _ => .error .noSuchField

def written : Numeral → Text
  | int i => Text.ofInt i
  | bool b => Text.ofString (if b then "True" else "False")
  | real x => Decimal.written x
  | entry x => Text.concat ["np.float64(", Decimal.written x, ")"]
  | text t => t.quoted
  | other t => t

instance writtenNumeral : Written Numeral := ⟨written⟩

def whole? : Numeral → Option Int
  | int i => some i
  | bool b => some (if b then 1 else 0)
  | real x | entry x => Binary64.toInt? x
  | text _ | other _ => none

/-- Whether two numbers of any kinds have one value. -/
def equals (m n : Numeral) : Bool :=
  match m.whole?, n.whole? with
  | some i, some j => i == j
  | none, none =>
    match m, n with
    | real x, real y | real x, entry y | entry x, real y | entry x, entry y => x == y
    | text t, text u | other t, other u => t == u
    | _, _ => false
  | _, _ => false

def isNaN : Numeral → Bool
  | real x | entry x => x.isNaN
  | _ => false

end Numeral
end ScalarGraph
