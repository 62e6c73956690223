import ScalarGraph.Geometry.Vector

/-! # Implicit shapes

An ellipse is the set of points with `a (X - x)² + b (Y - y)² = c`, a half-plane
that of the points with `a X + b Y ≤ c`.
-/
namespace ScalarGraph
variable {α ν τ : Type}

structure Ellipse (τ : Type) where
  a : τ
  b : τ
  c : τ
  x : τ
  y : τ

structure HalfPlane (τ : Type) where
  a : τ
  b : τ
  c : τ

def Ellipse.level (e : Ellipse (Term α ν)) (x y : Term α ν) : Term α ν :=
  .sub (.add (.mul e.a (.squared (.sub x e.x))) (.mul e.b (.squared (.sub y e.y)))) e.c

/-- Not positive inside the half-plane. -/
def HalfPlane.level (h : HalfPlane (Term α ν)) (x y : Term α ν) : Term α ν :=
  .sub (.add (.mul h.a x) (.mul h.b y)) h.c

/-- The parameters `a`, `b` and `c` of an ellipse along the axes, grown by `padding`. -/
def Ellipse.ofRadii (rx ry padding : Term α ν) : List (Term α ν) :=
  let rx := Term.add rx padding
  let ry := Term.add ry padding
  [.div ry rx, .div rx ry, .mul rx ry]

def Ellipse.radii (rx ry padding : Term α ν) : List (Term α ν) :=
  [.add rx padding, .add ry padding]

/-- The parameter `c` of a circle grown by `padding`. -/
def Ellipse.ofRadius (r padding : Term α ν) : Term α ν := .squared (.add r padding)

/-- The offset of the half-plane whose border passes through `p`, shrunk by `padding`. -/
def HalfPlane.offset (normal p : List (Term α ν)) (padding : Term α ν) : Term α ν :=
  .sub (Vector.dot normal p) padding

variable [DecidableEq α] [Hashable α] (R : Rules α) (find : ν → Build α (Operand α))

def Ellipse.buildOfRadii (rx ry padding : Term α ν) : Build α (List (Operand α)) :=
  Term.buildAfter R find (radii rx ry padding) (ofRadii rx ry padding)

/-- The half-plane on the side of `inside` of the line from `p` to `q`. `start` is the point of
the line that the offset is taken from. -/
def HalfPlane.build (zero : α) (p q : List (Term α ν)) (inside start : Except Fault (List (Term α ν)))
    (padding : Term α ν) : Build α (HalfPlane (Operand α)) := do
  match ← Vector.buildOutward R find zero p q inside with
  | [a, b] =>
    let start ← Build.ofExcept start
    return ⟨a.2, b.2, ← (offset [a.1, b.1] start padding).build R find⟩
  | _ => throw .badValue

end ScalarGraph
