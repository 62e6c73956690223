import ScalarGraph.Value

/-! # Values as input vectors

A number is a vector of one entry, and nested lists of one shape are read row by
row. Nothing counts as not a number, and numerals in texts are read.
-/
namespace ScalarGraph.Value

/-- Lists are nested at most this deep. -/
def depthLimit : Nat := 64

/-- The shape that all of a list have, a list of nothing having none of its own. -/
def commonShape : List (Option (List Nat)) → Option (List Nat)
  | [] => some []
  | s :: ss => if ss.all (· == s) then s else none

mutual
/-- The lengths of nested lists, from the outside in; `none` where they do not agree. -/
def shape : Value → Option (List Nat)
  | list vs => (commonShape (shapes vs)).map (vs.length :: ·)
  | vector xs => some [xs.length]
  | handleVector hs => some [hs.length]
  | _ => some []

def shapes : List Value → List (Option (List Nat))
  | [] => []
  | v :: vs => shape v :: shapes vs
end

mutual
def leaves : Value → List Value
  | list vs => leavesOf vs
  | vector xs => xs.map entry
  | handleVector hs => hs.map handle
  | v => [v]

def leavesOf : List Value → List Value
  | [] => []
  | v :: vs => leaves v ++ leavesOf vs
end

def component : Value → Except Fault Float
  | nothing => .ok Binary64.notANumber
  | v => v.toFloat

/-- The entries of a value that is read as an array, with the lengths of its axes. -/
def toArray (v : Value) : Except Fault (List Nat × List Float) := do
  match v.shape with
  | none => throw .badValue
  | some s =>
    if depthLimit < s.length then throw .badValue
    return (s, ← v.leaves.mapM component)

/-- The entries of two arrays of one axis side by side, a single one beside each of the other. -/
def paired (v w : Value) : Except Fault (List (Value × Value)) :=
  match v.shape, w.shape, v.leaves, w.leaves with
  | some s, some t, as, bs =>
    if 1 < s.length ∨ 1 < t.length then .error .badValue
    else
      match as, bs with
      | [a], bs => .ok (bs.map (a, ·))
      | as, [b] => .ok (as.map (·, b))
      | as, bs => if as.length = bs.length then .ok (as.zip bs) else .error .badValue
  | _, _, _, _ => .error .badValue

/-- The entries of a value that is read as one vector. -/
def toVector (v : Value) : Except Fault (Array Float) := do return (← v.toArray).2.toArray

end ScalarGraph.Value
