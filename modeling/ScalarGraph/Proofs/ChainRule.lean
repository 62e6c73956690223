import Mathlib.Algebra.BigOperators.Group.List.Basic
import Mathlib.Tactic.Ring
import ScalarGraph.Proofs.Net

/-! # The chain rule

The derivative of an input is one in its own position and zero in all others. That of any other
node is the sum over its slots of the local partial times the derivative of the operand.
-/
namespace ScalarGraph
variable {α ι κ : Type} [CommRing α]

/-- Adjoints are added and multiplied in the ring, and only zero is taken for zero. -/
structure Adjoints.Exact (A : Adjoints α) : Prop where
  zero : A.zero = 0
  one : A.one = 1
  add : ∀ a b, A.add a b = a + b
  mul : ∀ a b, A.mul a b = a * b
  eq_zero : ∀ a, A.isZero a = true → a = 0

namespace Node

def partials (C : Calculus α) (y : α) : Node α α → List α
  | const _ | input _ _ => []
  | unary o x => [C.partials.unary o x y]
  | binary o x z => [(C.partials.binary o x z y).1, (C.partials.binary o x z y).2]
  | select c _ _ => if C.rules.truthy c then [0, 1, 0] else [0, 0, 1]
  | nary o vs => C.partials.nary o vs y
  | debug _ _ => [1]

/-- The derivative in position `i` of a node with value `y`, by those of its operands. -/
def derivative (C : Calculus α) (i : Nat) (y : α) (n : Node α α) (ds : List α) : α :=
  match n with
  | .input k _ => if k = i then 1 else 0
  | n => (List.zipWith (· * ·) (n.partials C y) ds).sum

theorem shares_eq {C : Calculus α} (hC : C.adjoints.Exact) (n : Node α α) (y a : α) :
    n.shares C y a = (n.partials C y).map (a * ·) := by
  cases n with
  | select c t e =>
    simp only [shares, partials, hC.mul, hC.zero, hC.one]
    split <;> rfl
  | _ => simp [shares, partials, hC.mul]

theorem sum_zipWith_map_mul (a : α) (ps ds : List α) :
    (List.zipWith (· * ·) (ps.map (a * ·)) ds).sum = a * (List.zipWith (· * ·) ps ds).sum := by
  induction ps generalizing ds with
  | nil => simp
  | cons x ps ih =>
    cases ds with
    | nil => simp
    | cons d ds =>
      simp only [List.map_cons, List.zipWith_cons_cons, List.sum_cons, ih]
      ring

/-- What a node passes on, weighed by the derivatives of its operands, is its adjoint weighed by
its own derivative. -/
theorem sum_shares {C : Calculus α} (hC : C.adjoints.Exact) {n : Node α α}
    (hn : n.position? = none) (i : Nat) (y a : α) (ds : List α) :
    (List.zipWith (· * ·) (n.shares C y a) ds).sum = a * n.derivative C i y ds := by
  rw [shares_eq hC, sum_zipWith_map_mul]
  cases n <;> simp_all [derivative, position?]

theorem sum_zipWith_mul_eq_zero {ds : List α} (hds : ∀ d ∈ ds, d = 0) (ps : List α) :
    (List.zipWith (· * ·) ps ds).sum = 0 := by
  induction ps generalizing ds with
  | nil => simp
  | cons x ps ih =>
    cases ds with
    | nil => simp
    | cons d ds =>
      rw [List.zipWith_cons_cons, List.sum_cons, hds d List.mem_cons_self, mul_zero, zero_add]
      exact ih fun e he => hds e (List.mem_cons_of_mem _ he)

theorem derivative_eq_zero {C : Calculus α} {i : Nat} {y : α} {n : Node α α} {ds : List α}
    (hn : n.position? ≠ some i) (hds : ∀ d ∈ ds, d = 0) : n.derivative C i y ds = 0 := by
  cases n with
  | input k s => exact if_neg fun hk => hn (by rw [hk, position?])
  | _ => exact sum_zipWith_mul_eq_zero hds _

end Node

namespace Net

/-- The derivatives of all nodes in position `i`, at the values `V`. -/
def ChainRule (N : Net α ι) (C : Calculus α) (V : ι → α) (i : Nat) (D : ι → α) : Prop :=
  ∀ j n, N j n → D j = (n.map V).derivative C i (V j) (n.operands.map D)

theorem Ranked.exists_chainRule {N : Net α ι} {rank : ι → Nat} (hN : N.Ranked rank)
    (C : Calculus α) (V : ι → α) (i : Nat) : ∃ D, N.ChainRule C V i D := by
  obtain ⟨D, hD⟩ := hN.exists_solution fun j n (m : Node α α) =>
    (n.map V).derivative C i (V j) m.operands
  exact ⟨D, fun j n hn => by rw [hD j n hn, Node.operands_map]⟩

theorem Maps.chainRule {g : κ → ι} {M : Net α κ} {N : Net α ι} (hg : Maps g M N) {C : Calculus α}
    {V : ι → α} {i : Nat} {D : ι → α} (hD : N.ChainRule C V i D) :
    M.ChainRule C (V ∘ g) i (D ∘ g) := by
  intro j n hn
  rw [Function.comp_apply, hD _ _ (hg hn), Node.map_map, Node.operands_map, List.map_map]
  rfl

theorem ChainRule.eq_zero {N : Net α ι} {C : Calculus α} {V : ι → α} {i : Nat} {D : ι → α}
    (hD : N.ChainRule C V i D) {rank : ι → Nat} (hN : N.Ranked rank)
    (hclosed : ∀ {j n}, N j n → ∀ c ∈ n.operands, ∃ m, N c m) {r : ι}
    (hfree : ∀ j n, N j n → N.Needs r j → n.position? ≠ some i) :
    ∀ j n, N j n → N.Needs r j → D j = 0 := by
  intro j n hn hj
  induction hrank : rank j using Nat.strongRecOn generalizing j n with
  | _ _ ih =>
    subst hrank
    rw [hD j n hn]
    apply Node.derivative_eq_zero
    · simpa using hfree j n hn hj
    · intro d hd
      obtain ⟨c, hc, rfl⟩ := List.mem_map.mp hd
      obtain ⟨m, hm⟩ := hclosed hn c hc
      exact ih (rank c) (hN.operand_lt hn c hc) c m hm (hj.tail ⟨n, hn, hc⟩) rfl

end Net
end ScalarGraph
