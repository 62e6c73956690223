import ScalarGraph.Proofs.Dual

/-! # Rules over extended numbers

Rational numbers are extended by the two infinities and NaN, and arithmetic on them is exact but keeps the
conventions of machine numbers: a quotient by zero is infinite, or NaN where zero is divided by zero. There is
one zero only. On finite numbers the rules and partials of the algebraic operators give what they give over
the rationals, as long as nothing is divided by zero.
-/
namespace ScalarGraph

/-- A rational number, an infinity or NaN. -/
inductive Extended where
  | finite (x : ℚ)
  | infinite (negative : Bool)
  | nan
deriving DecidableEq, Hashable, Inhabited

instance writtenExtended : Written Extended where
  written
    | .finite x => Written.written x
    | .infinite s => Text.ofString (if s then "-inf" else "inf")
    | .nan => Text.ofString "nan"

namespace Extended

def isFinite : Extended → Bool
  | finite _ => true
  | _ => false

def isNaN : Extended → Bool
  | nan => true
  | _ => false

def neg : Extended → Extended
  | finite x => finite (-x)
  | infinite s => infinite !s
  | nan => nan

def add : Extended → Extended → Extended
  | finite x, finite y => finite (x + y)
  | infinite s, infinite t => if s = t then infinite s else nan
  | infinite s, finite _ | finite _, infinite s => infinite s
  | nan, _ | _, nan => nan

def sub (a b : Extended) : Extended := add a (neg b)

def mul : Extended → Extended → Extended
  | finite x, finite y => finite (x * y)
  | infinite s, infinite t => infinite (s ^^ t)
  | infinite s, finite x | finite x, infinite s =>
    if x = 0 then nan else infinite (s ^^ decide (x < 0))
  | nan, _ | _, nan => nan

def div : Extended → Extended → Extended
  | finite x, finite y =>
    if y ≠ 0 then finite (x / y) else if x = 0 then nan else infinite (decide (x < 0))
  | finite _, infinite _ => finite 0
  | infinite s, finite y => infinite (s ^^ decide (y < 0))
  | infinite _, infinite _ => nan
  | nan, _ | _, nan => nan

/-- Whole powers of rational numbers. A negative power of zero is infinite; what is no whole power of a
rational number is left to `rest`. -/
def pow (rest : Extended → Extended → Extended) : Extended → Extended → Extended
  | finite x, finite y =>
    if y.den ≠ 1 then rest (finite x) (finite y)
    else if x = 0 ∧ y < 0 then infinite false
    else finite (x ^ y.num)
  | a, b => rest a b

def abs : Extended → Extended
  | finite x => finite |x|
  | infinite _ => infinite false
  | nan => nan

def sign : Extended → Extended
  | finite x => finite (SignType.sign x)
  | infinite s => finite (if s then -1 else 1)
  | nan => nan

def le : Extended → Extended → Bool
  | finite x, finite y => decide (x ≤ y)
  | finite _, infinite t => !t
  | infinite s, finite _ => s
  | infinite s, infinite t => s || !t
  | nan, _ | _, nan => false

def lt : Extended → Extended → Bool
  | finite x, finite y => decide (x < y)
  | finite _, infinite t => !t
  | infinite s, finite _ => s
  | infinite s, infinite t => s && !t
  | nan, _ | _, nan => false

def eq : Extended → Extended → Bool
  | finite x, finite y => decide (x = y)
  | infinite s, infinite t => s == t
  | _, _ => false

def max : Extended → Extended → Extended
  | finite x, finite y => finite (Max.max x y)
  | nan, _ | _, nan => nan
  | a, b => if le b a then a else b

def min : Extended → Extended → Extended
  | finite x, finite y => finite (Min.min x y)
  | nan, _ | _, nan => nan
  | a, b => if le a b then a else b

theorem pow_finite (f : Extended → Extended → Extended) (x : ℚ) (n : ℕ) :
    pow f (finite x) (finite n) = finite (x ^ n) := by
  have hnonneg : ¬(x = 0 ∧ (n : ℚ) < 0) := fun h => absurd h.2 (not_lt.mpr (Nat.cast_nonneg n))
  simp only [pow]
  rw [if_neg (by simp), if_neg hnonneg, Rat.num_natCast, zpow_natCast]

/-- The power `-1` of zero is infinite, and zero times it is NaN. -/
theorem mul_pow_pred (f : Extended → Extended → Extended) (x : ℚ) (n : ℕ) :
    mul (finite n) (pow f (finite x) (finite (n - 1 : ℚ))) =
      if n = 0 ∧ x = 0 then nan else finite (n * x ^ (n - 1)) := by
  cases n with
  | zero =>
    by_cases hx : x = 0
    · have hpow : pow f (finite x) (finite ((0 : ℕ) - 1 : ℚ)) = infinite false := by
        simp [pow, hx]
      rw [hpow, if_pos ⟨rfl, hx⟩]
      rfl
    · have hpow : pow f (finite x) (finite ((0 : ℕ) - 1 : ℚ)) = finite (x ^ (-1 : ℤ)) := by
        simp [pow, hx]
      rw [hpow, if_neg (fun h => hx h.2)]
      simp [mul]
  | succ n =>
    have hpred : ((n + 1 : ℕ) : ℚ) - 1 = n := by push_cast; ring
    rw [hpred, pow_finite, if_neg (fun h => Nat.succ_ne_zero n h.1)]
    rfl

theorem add_zero_finite (a : Extended) : add (finite 0) a = a := by
  cases a <;> simp [add]

theorem one_mul_finite (a : Extended) : mul (finite 1) a = a := by
  cases a with
  | finite x => exact congrArg finite (one_mul x)
  | infinite s =>
    show infinite (s ^^ decide ((1 : ℚ) < 0)) = infinite s
    rw [decide_eq_false (by norm_num), Bool.xor_false]
  | nan => rfl

theorem eq_zero_of_eq {a : Extended} (h : eq a (finite 0) = true) : a = finite 0 := by
  cases a with
  | finite x => simpa [eq] using h
  | infinite s => cases h
  | nan => cases h

end Extended

namespace Elementary

/-- Exact arithmetic with infinities and NaN. The guard is that of `E`; what is not algebraic is as in
`rest`. -/
def extended (E : Elementary ℚ) (rest : Elementary Extended) : Elementary Extended :=
  { rest with
    zero := .finite 0
    one := .finite 1
    two := .finite (1 + 1)
    guard := .finite E.guard
    neg := Extended.neg
    add := Extended.add
    sub := Extended.sub
    mul := Extended.mul
    div := Extended.div
    pow := Extended.pow rest.pow
    max := Extended.max
    min := Extended.min
    abs := Extended.abs
    sign := Extended.sign
    lt := Extended.lt
    le := Extended.le
    eq := Extended.eq
    isNaN := Extended.isNaN
    isFinite := Extended.isFinite }

section
variable (E : Elementary ℚ) (rest : Elementary Extended)
open Extended

theorem div_finite {x y : ℚ} (hy : y ≠ 0) : Extended.div (finite x) (finite y) = finite (x / y) := by
  simp [Extended.div, hy]

theorem sub_finite (x y : ℚ) : Extended.sub (finite x) (finite y) = finite (x - y) := by
  rw [sub_eq_add_neg]
  rfl

theorem truth_finite (b : Bool) :
    (E.extended rest).truth b = finite (E.ofField.truth b) := by
  cases b <;> rfl

theorem unaryValue_finite {o : UnaryOp} (ho : o.isAlgebraic = true) {x : ℚ}
    (hinverse : o = .inverse → x + E.guard ≠ 0) :
    (E.extended rest).unaryValue o (finite x) = finite (E.ofField.unaryValue o x) := by
  cases o with
  | neg | squared | abs => rfl
  | inverse => exact div_finite (hinverse rfl)
  | _ => cases ho

theorem unaryPartial_finite {o : UnaryOp} (ho : o.isAlgebraic = true) (x y : ℚ) :
    (E.extended rest).unaryPartial o (finite x) (finite y) = finite (E.ofField.unaryPartial o x y) := by
  cases o with
  | neg | squared | inverse | abs => rfl
  | _ => cases ho

theorem binaryValue_finite {o : BinaryOp} (ho : o.isAlgebraic = true) {x y : ℚ}
    (hdiv : o = .div → y + E.guard ≠ 0) :
    (E.extended rest).binaryValue o (finite x) (finite y) = finite (E.ofField.binaryValue o x y) := by
  cases o with
  | add | mul | max | min => rfl
  | sub => exact sub_finite x y
  | div => exact div_finite (hdiv rfl)
  | gt | lt | eq | and | or => exact truth_finite E rest _
  | atan2 | pow => cases ho

theorem binaryPartial_finite {o : BinaryOp} (ho : o.isAlgebraic = true) {a b : ℚ} (y : ℚ)
    (hdiv : o = .div → b + E.guard ≠ 0) :
    (E.extended rest).binaryPartial o (finite a) (finite b) (finite y) =
      (E.ofField.binaryPartial o a b y).map finite finite := by
  cases o with
  | div =>
    have hd := hdiv rfl
    exact Prod.ext (div_finite hd) (div_finite (mul_ne_zero hd hd))
  | max | min =>
    rw [binaryPartial, binaryPartial, apply_ite (Prod.map finite finite)]
    rfl
  | atan2 | pow => cases ho
  | _ => rfl

theorem foldl_finite {pick : Extended → Extended → Extended} {pick₀ : ℚ → ℚ → ℚ}
    (hpick : ∀ x y, pick (finite x) (finite y) = finite (pick₀ x y)) (v : ℚ) (vs : List ℚ) :
    (vs.map finite).foldl pick (finite v) = finite (vs.foldl pick₀ v) := by
  induction vs generalizing v with
  | nil => rfl
  | cons u vs ih =>
    rw [List.map_cons, List.foldl_cons, List.foldl_cons, hpick]
    exact ih _

theorem naryValue_finite {o : NaryOp} {vs : List ℚ} (hvs : o ≠ .sum → vs ≠ []) :
    (E.extended rest).naryValue o (vs.map finite) = finite (E.ofField.naryValue o vs) := by
  cases vs with
  | nil =>
    cases o with
    | sum => rfl
    | max | min => exact absurd rfl (hvs (by decide))
  | cons v vs =>
    rw [List.map_cons, naryValue_cons, naryValue_cons]
    cases o with
    | sum | max | min => exact foldl_finite (fun _ _ => rfl) v vs

theorem firstEqual_finite (y : ℚ) (vs : List ℚ) :
    (E.extended rest).firstEqual (finite y) (vs.map finite) = (E.ofField.firstEqual y vs).map finite := by
  induction vs with
  | nil => rfl
  | cons v vs ih =>
    have heq : (E.extended rest).eq (finite v) (finite y) = E.ofField.eq v y := rfl
    rw [List.map_cons, firstEqual, firstEqual, heq, ih]
    split
    · rw [List.map_cons, List.map_map, List.map_map]
      rfl
    · rfl

theorem naryPartial_finite (o : NaryOp) (y : ℚ) (vs : List ℚ) :
    (E.extended rest).naryPartial o (vs.map finite) (finite y) =
      (E.ofField.naryPartial o vs y).map finite := by
  cases o with
  | sum =>
    show (vs.map finite).map _ = (vs.map _).map finite
    rw [List.map_map, List.map_map]
    rfl
  | max | min => exact firstEqual_finite E rest y vs

end

end Elementary
end ScalarGraph
