import ScalarGraph.Derivative
import ScalarGraph.Geometry.Shape

/-! # The polynomial of two ellipses

The coefficients of the polynomial in `t` whose roots are the members of the
pencil of two ellipses that shrink to a point on their own curve, with the lowest
degree first.
-/
namespace ScalarGraph.Pencil
variable {α ν : Type}
open Term

def alpha0 (p q : Ellipse (Term α ν)) : Term α ν :=
  mul (mul (squared p.a) (squared p.b))
    (add (sub p.c q.c)
      (add (mul q.a (squared (sub q.x p.x))) (mul q.b (squared (sub q.y p.y)))))

variable (numeral : Nat → α)

def num (n : Nat) : Term α ν := number (numeral n)

/-- Twice the product of the first ellipse's weights. -/
def scale (p : Ellipse (Term α ν)) : Term α ν := mul (num numeral 2) (mul p.a p.b)

def alpha1 (p q : Ellipse (Term α ν)) : Term α ν :=
  mul (scale numeral p)
    (add (mul (sub p.c q.c) (sub (add (mul p.a q.b) (mul p.b q.a)) (scale numeral p)))
      (add
        (mul (mul p.a q.a)
          (mul (squared (sub q.x p.x)) (sub q.b (mul (num numeral 2) p.b))))
        (mul (mul p.b q.b)
          (mul (squared (sub q.y p.y)) (sub q.a (mul (num numeral 2) p.a))))))

/-- The part of the quadratic coefficient that belongs to `c`. -/
def quadraticC (p q : Ellipse (Term α ν)) : Term α ν :=
  add
    (add (mul (squared p.a) (squared (sub q.b p.b))) (mul (squared p.b) (squared (sub q.a p.a))))
    (mul (mul (num numeral 4) (mul p.a p.b)) (mul (sub q.b p.b) (sub q.a p.a)))

def quadraticX (p q : Ellipse (Term α ν)) : Term α ν :=
  sub (mul (squared p.b) (sub (mul (num numeral 6) p.a) q.a))
    (mul (mul p.a q.b) (sub (mul (num numeral 6) p.b) q.b))

def quadraticY (p q : Ellipse (Term α ν)) : Term α ν :=
  sub (mul (squared p.a) (sub (mul (num numeral 6) p.b) q.b))
    (mul (mul p.b q.a) (sub (mul (num numeral 6) p.a) q.a))

def alpha2 (p q : Ellipse (Term α ν)) : Term α ν :=
  add (mul (quadraticC numeral p q) (sub p.c q.c))
    (add (mul (mul (quadraticX numeral p q) (mul p.a q.a)) (squared (sub q.x p.x)))
      (mul (mul (quadraticY numeral p q) (mul p.b q.b)) (squared (sub q.y p.y))))

def alpha3 (p q : Ellipse (Term α ν)) : Term α ν :=
  mul
    (mul (num numeral 2)
      (sub (mul (num numeral 2) (mul p.a p.b)) (add (mul p.b q.a) (mul p.a q.b))))
    (add (mul (mul (sub q.a p.a) (sub q.b p.b)) (sub q.c p.c))
      (add (mul (mul p.a q.a) (mul (squared (sub q.x p.x)) (sub q.b p.b)))
        (mul (mul p.b q.b) (mul (squared (sub q.y p.y)) (sub q.a p.a)))))

def alpha4 (p q : Ellipse (Term α ν)) : Term α ν :=
  neg
    (add (mul (mul (squared (sub q.a p.a)) (squared (sub q.b p.b))) (sub q.c p.c))
      (add
        (mul (mul (mul p.a q.a) (squared (sub q.x p.x)))
          (mul (sub q.a p.a) (squared (sub q.b p.b))))
        (mul (mul (mul p.b q.b) (squared (sub q.y p.y)))
          (mul (squared (sub q.a p.a)) (sub q.b p.b)))))

def coefficients (p q : Ellipse (Term α ν)) : List (Term α ν) :=
  [alpha0 p q, alpha1 numeral p q, alpha2 numeral p q, alpha3 numeral p q, alpha4 p q]

/-- The parts of the coefficients in the order in which they are built. -/
def steps (p q : Ellipse (Term α ν)) : List (Term α ν) :=
  [alpha0 p q, alpha1 numeral p q, quadraticC numeral p q, quadraticX numeral p q,
    quadraticY numeral p q, alpha2 numeral p q, alpha3 numeral p q, alpha4 p q]

/-- The degree of a polynomial of which it is known what coefficients are not zero. -/
def degree (nonzero : List Bool) : Nat :=
  (nonzero.zipIdx.filter fun p => p.1).foldl (fun m p => max m p.2) 0

def monic (coefficients : List (Term α ν)) (degree : Nat) : List (Term α ν) :=
  match coefficients[degree]? with
  | some lead => (coefficients.take degree).map fun c => div c lead
  | none => []

variable [DecidableEq α] [Hashable α] (find : ν → Build α (Operand α))

def buildCoefficients (R : Rules α) (p q : Ellipse (Term α ν)) : Build α (List (Operand α)) :=
  Term.buildAfter R find (steps numeral p q) (coefficients numeral p q)

/-- The monic polynomial of the degree that the coefficients have at the sample point, without
its leading coefficient. -/
def buildPolynomial [Written α] (C : Calculus α) (p q : Ellipse (Term α ν)) :
    Build α (List (Operand α)) := do
  let values ← numbersOf C (← buildCoefficients numeral find C.rules p q)
  let degree := degree (values.map fun x => !C.adjoints.isZero x)
  Term.buildAll C.rules find (monic (coefficients numeral p q) degree)

end ScalarGraph.Pencil
