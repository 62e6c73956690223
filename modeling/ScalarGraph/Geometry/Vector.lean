import ScalarGraph.Term

/-! # Vectors of terms

Two vectors of unequal length are combined as far as the shorter one goes.
-/
namespace ScalarGraph.Vector
variable {α ν : Type}

def plus (u v : List (Term α ν)) : List (Term α ν) := List.zipWith Term.add u v

def minus (u v : List (Term α ν)) : List (Term α ν) := List.zipWith Term.sub u v

def scaled (c : Term α ν) (v : List (Term α ν)) : List (Term α ν) := v.map (Term.mul c)

def dot (u v : List (Term α ν)) : Term α ν := Term.sum (List.zipWith Term.mul u v)

def norm (v : List (Term α ν)) : Term α ν := Term.sqrt (Term.sum (v.map Term.squared))

def normalized (v : List (Term α ν)) : List (Term α ν) := v.map fun a => Term.div a (norm v)

/-- A quarter turn counterclockwise, of vectors in the plane only. -/
def rotated? : List (Term α ν) → Option (List (Term α ν))
  | [x, y] => some [Term.neg y, x]
  | _ => none

def facesAway (zero : α) (normal inside p : List (Term α ν)) : Term α ν :=
  .binary .lt (dot normal (minus inside p)) (.number zero)

/-- The normal itself where it points away from `inside`, else its opposite. -/
def oriented (zero : α) (normal inside p : List (Term α ν)) : List (Term α ν) :=
  normal.map fun n => .select (facesAway zero normal inside p) n (Term.neg n)

variable [DecidableEq α] [Hashable α] (R : Rules α) (find : ν → Build α (Operand α))

def buildNormalized (v : List (Term α ν)) : Build α (List (Operand α)) :=
  Term.buildAfter R find [norm v] (normalized v)

/-- The terms of the unit normal of the line from `p` to `q`, on its left, which are built. -/
def buildNormal (p q : List (Term α ν)) : Build α (List (Term α ν)) := do
  discard (Term.buildAll R find (minus q p))
  match rotated? (minus q p) with
  | none => throw .badValue
  | some turned =>
    discard (Term.buildAll R find turned)
    discard (buildNormalized R find turned)
    return normalized turned

/-- The terms of the unit normal of the line from `p` to `q` that points away from `inside`, with
what they are built to. -/
def buildOutward (zero : α) (p q : List (Term α ν)) (inside : Except Fault (List (Term α ν))) :
    Build α (List (Term α ν × Operand α)) := do
  let normal ← buildNormal R find p q
  let inside ← Build.ofExcept inside
  let outward := oriented zero normal inside p
  return outward.zip (← Term.buildAfter R find (minus inside p) outward)

end ScalarGraph.Vector
