import ScalarGraph.Proofs.Dual
import ScalarGraph.Term

/-! # Values in exact arithmetic

The values of the shorthands for terms, and arithmetic that is that of a commutative ring.
-/
namespace ScalarGraph
variable {α ν : Type}

namespace Elementary

structure Ring [CommRing α] (E : Elementary α) : Prop where
  neg : ∀ a, E.neg a = -a
  add : ∀ a b, E.add a b = a + b
  sub : ∀ a b, E.sub a b = a - b
  mul : ∀ a b, E.mul a b = a * b

theorem ring_ofField {K : Type} [Field K] [LinearOrder K] (rest : Elementary K) : rest.ofField.Ring where
  neg _ := rfl
  add _ _ := rfl
  sub _ _ := rfl
  mul _ _ := rfl

end Elementary

namespace Term
variable {E : Elementary α} {leafValue : ν → α} (t u : Term α ν)

@[simp] theorem value_leaf (l : ν) : (leaf l : Term α ν).value E.rules leafValue = leafValue l := rfl

@[simp] theorem value_num (x : α) : (number x : Term α ν).value E.rules leafValue = x := rfl

@[simp] theorem value_add : (add t u).value E.rules leafValue =
    E.add (t.value E.rules leafValue) (u.value E.rules leafValue) := rfl

@[simp] theorem value_sub : (sub t u).value E.rules leafValue =
    E.sub (t.value E.rules leafValue) (u.value E.rules leafValue) := rfl

@[simp] theorem value_mul : (mul t u).value E.rules leafValue =
    E.mul (t.value E.rules leafValue) (u.value E.rules leafValue) := rfl

@[simp] theorem value_neg : (neg t).value E.rules leafValue = E.neg (t.value E.rules leafValue) := rfl

@[simp] theorem value_squared : (squared t).value E.rules leafValue =
    E.mul (t.value E.rules leafValue) (t.value E.rules leafValue) := rfl

end Term
end ScalarGraph
