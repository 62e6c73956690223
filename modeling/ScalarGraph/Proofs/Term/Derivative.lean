import ScalarGraph.Proofs.ChainRule
import ScalarGraph.Proofs.Term.Meaning

/-! # Derivatives of terms

The value of a term, its value with its derivative by the chain rule, and whether it has
some leaf are all meanings of its tree. None of them is changed by folding constants.
-/
namespace ScalarGraph
variable {α ν : Type}

namespace Term

mutual
/-- The derivative of a tree by the chain rule, from the values and derivatives of its leaves. -/
def derivative [CommRing α] (C : Calculus α) (leafValue leafDerivative : ν → α) : Term α ν → α
  | leaf v => leafDerivative v
  | number _ => 0
  | unary o t =>
    C.partials.unary o (t.value C.rules leafValue) ((unary o t).value C.rules leafValue) *
      derivative C leafValue leafDerivative t
  | binary o t u =>
    let p := C.partials.binary o (t.value C.rules leafValue) (u.value C.rules leafValue)
      ((binary o t u).value C.rules leafValue)
    p.1 * derivative C leafValue leafDerivative t + p.2 * derivative C leafValue leafDerivative u
  | select c t e =>
    if C.rules.truthy (c.value C.rules leafValue) then derivative C leafValue leafDerivative t
    else derivative C leafValue leafDerivative e
  | nary o ts =>
    (List.zipWith (· * ·) (C.partials.nary o (values C.rules leafValue ts)
      ((nary o ts).value C.rules leafValue)) (derivatives C leafValue leafDerivative ts)).sum
  | debug _ t => derivative C leafValue leafDerivative t

def derivatives [CommRing α] (C : Calculus α) (leafValue leafDerivative : ν → α) :
    List (Term α ν) → List α
  | [] => []
  | t :: ts => derivative C leafValue leafDerivative t :: derivatives C leafValue leafDerivative ts
end

mutual
def leaves : Term α ν → List ν
  | leaf v => [v]
  | number _ => []
  | unary _ t | debug _ t => leaves t
  | binary _ t u => leaves t ++ leaves u
  | select c t e => leaves c ++ leaves t ++ leaves e
  | nary _ ts => leavesOf ts

def leavesOf : List (Term α ν) → List ν
  | [] => []
  | t :: ts => leaves t ++ leavesOf ts
end

end Term

namespace Node

def tangent [CommRing α] (C : Calculus α) (xs : Array α) (i : Nat) (n : Node α (α × α)) : α × α :=
  let y := (n.map Prod.fst).value C.rules xs
  (y, (n.map Prod.fst).derivative C i y (n.operands.map Prod.snd))

def mentions (k : Nat) (n : Node α Bool) : Bool := n.position? == some k || n.operands.any id

theorem value_of_not_isTerminal {R : Rules α} {n : Node α α} (h : n.op.isTerminal = false)
    (xs ys : Array α) : n.value R xs = n.value R ys := by
  cases n with
  | const => cases h
  | input => cases h
  | _ => rfl

theorem folds_value (R : Rules α) (xs : Array α) : R.Folds (value R xs) := by
  intro n hn
  have hid : (n.map fun x => value R xs (const x)) = n := map_eq_self fun _ _ => rfl
  rw [hid]
  exact value_of_not_isTerminal hn xs #[]

theorem folds_tangent [CommRing α] (C : Calculus α) (xs : Array α) (i : Nat) :
    C.rules.Folds (tangent C xs i) := by
  intro n hn
  have hconst : ∀ x : α, tangent C xs i (const x) = (x, 0) := fun _ => rfl
  have hfst : ((n.map fun x => tangent C xs i (const x)).map Prod.fst) = n := by
    rw [map_map]
    exact map_eq_self fun _ _ => rfl
  rw [hconst]
  refine Prod.ext ?_ ?_
  · rw [tangent, hfst]
    exact value_of_not_isTerminal hn xs #[]
  · rw [tangent, hfst]
    refine derivative_eq_zero (by simp [position?_of_not_isTerminal hn]) fun d hd => ?_
    simp only [operands_map, List.map_map, List.mem_map] at hd
    obtain ⟨x, -, rfl⟩ := hd
    rfl

theorem folds_mentions (R : Rules α) (k : Nat) : R.Folds (mentions k) := by
  intro n hn
  have hconst : ∀ x : α, mentions k (const x) = false := fun _ => rfl
  rw [hconst, mentions, position?_map, position?_of_not_isTerminal hn, operands_map]
  simp [hconst]

end Node

namespace Term

mutual
theorem fold_value (R : Rules α) (xs : Array α) (leafValue : ν → α) :
    ∀ e : Term α ν, e.fold (Node.value R xs) leafValue = e.value R leafValue
  | leaf v | number x => by simp [fold, value, Node.value]
  | unary o t | debug l t => by simp [fold, value, Node.value, fold_value R xs leafValue t]
  | binary o t u => by
    simp [fold, value, Node.value, fold_value R xs leafValue t, fold_value R xs leafValue u]
  | select c t e => by
    simp [fold, value, Node.value, fold_value R xs leafValue c, fold_value R xs leafValue t,
      fold_value R xs leafValue e]
  | nary o ts => by simp [fold, value, Node.value, folds_value R xs leafValue ts]

theorem folds_value (R : Rules α) (xs : Array α) (leafValue : ν → α) :
    ∀ ts : List (Term α ν), folds (Node.value R xs) leafValue ts = values R leafValue ts
  | [] => rfl
  | t :: ts => by
    rw [folds, values, fold_value R xs leafValue t, folds_value R xs leafValue ts]
end

mutual
theorem fold_tangent [CommRing α] (C : Calculus α) (xs : Array α) (i : Nat)
    (leafValue leafDerivative : ν → α) : ∀ e : Term α ν,
    e.fold (Node.tangent C xs i) (fun l => (leafValue l, leafDerivative l)) =
      (e.value C.rules leafValue, e.derivative C leafValue leafDerivative)
  | leaf v => rfl
  | number x => rfl
  | unary o t => by
    rw [fold, fold_tangent C xs i leafValue leafDerivative t]
    simp [Node.tangent, Node.map, Node.value, Node.derivative, Node.partials, Node.operands, value,
      derivative]
  | binary o t u => by
    rw [fold, fold_tangent C xs i leafValue leafDerivative t,
      fold_tangent C xs i leafValue leafDerivative u]
    simp [Node.tangent, Node.map, Node.value, Node.derivative, Node.partials, Node.operands, value,
      derivative]
  | select c t e => by
    rw [fold, fold_tangent C xs i leafValue leafDerivative c,
      fold_tangent C xs i leafValue leafDerivative t, fold_tangent C xs i leafValue leafDerivative e]
    simp only [Node.tangent, Node.map, Node.value, Node.derivative, Node.partials, Node.operands, value,
      derivative]
    split <;> simp
  | nary o ts => by
    obtain ⟨hvalues, hderivatives⟩ := folds_tangent C xs i leafValue leafDerivative ts
    simp [fold, Node.tangent, Node.map, Node.value, Node.derivative, Node.partials, Node.operands, value,
      derivative, hvalues, hderivatives]
  | debug l t => by
    rw [fold, fold_tangent C xs i leafValue leafDerivative t]
    simp [Node.tangent, Node.map, Node.value, Node.derivative, Node.partials, Node.operands, value,
      derivative]

theorem folds_tangent [CommRing α] (C : Calculus α) (xs : Array α) (i : Nat)
    (leafValue leafDerivative : ν → α) : ∀ ts : List (Term α ν),
    (folds (Node.tangent C xs i) (fun l => (leafValue l, leafDerivative l)) ts).map Prod.fst =
        values C.rules leafValue ts ∧
      (folds (Node.tangent C xs i) (fun l => (leafValue l, leafDerivative l)) ts).map Prod.snd =
        derivatives C leafValue leafDerivative ts
  | [] => ⟨rfl, rfl⟩
  | t :: ts => by
    obtain ⟨hvalues, hderivatives⟩ := folds_tangent C xs i leafValue leafDerivative ts
    rw [folds, fold_tangent C xs i leafValue leafDerivative t]
    exact ⟨by rw [List.map_cons, hvalues, values], by rw [List.map_cons, hderivatives, derivatives]⟩
end

mutual
theorem fold_mentions (k : Nat) (P : ν → Bool) :
    ∀ e : Term α ν, e.fold (Node.mentions k) P = e.leaves.any P
  | leaf v => by simp [fold, leaves]
  | number x => rfl
  | unary o t | debug l t => by
    simp [fold, leaves, Node.mentions, Node.position?, Node.operands, fold_mentions k P t]
  | binary o t u => by
    simp [fold, leaves, Node.mentions, Node.position?, Node.operands, fold_mentions k P t,
      fold_mentions k P u]
  | select c t e => by
    simp [fold, leaves, Node.mentions, Node.position?, Node.operands, fold_mentions k P c,
      fold_mentions k P t, fold_mentions k P e]
  | nary o ts => by
    simp [fold, leaves, Node.mentions, Node.position?, Node.operands, folds_mentions k P ts]

theorem folds_mentions (k : Nat) (P : ν → Bool) :
    ∀ ts : List (Term α ν), (folds (Node.mentions k) P ts).any id = (leavesOf ts).any P
  | [] => rfl
  | t :: ts => by
    rw [folds, leavesOf, List.any_cons, List.any_append, fold_mentions k P t, folds_mentions k P ts]
    rfl
end

end Term
end ScalarGraph
