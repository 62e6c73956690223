import Mathlib
import ScalarGraph.Proofs.Reduction

/-! # Rules over dual numbers

A dual number has a standard and an infinitesimal part. Over an ordered field the rules of the
algebraic operators extend to dual numbers by arithmetic alone, where comparisons look at
the standard parts. What a node makes there of operands whose infinitesimal parts are derivatives
is its value with its derivative by the local partials. The partials are written next to the rules,
and the arithmetic does not know them.
-/
namespace ScalarGraph
open TrivSqZeroExt
variable {K ι : Type}

deriving instance Inhabited for Elementary

instance writtenRat : Written ℚ := ⟨fun x => Text.ofInt x.num ++ "/" ++ Text.ofNat x.den⟩

namespace Elementary
variable [Field K] [LinearOrder K]

/-- The operations of an ordered field. The guard and all that is not algebraic is as in `rest`. -/
def ofField (rest : Elementary K) : Elementary K :=
  { rest with
    zero := 0
    one := 1
    two := 1 + 1
    neg := Neg.neg
    add := (· + ·)
    sub := (· - ·)
    mul := (· * ·)
    div := (· / ·)
    max := Max.max
    min := Min.min
    abs := fun a => |a|
    sign := fun a => SignType.sign a
    lt := fun a b => decide (a < b)
    le := fun a b => decide (a ≤ b)
    eq := fun a b => decide (a = b)
    isNaN := fun _ => false
    isFinite := fun _ => true }

/-- The arithmetic of dual numbers. Comparisons look at the standard parts alone, and by these the
greater, the lesser and the absolute value are chosen; of two that are equal there, `ties` says
whether the first is taken. -/
def dual (E : Elementary K) (ties : DualNumber K → DualNumber K → Bool)
    (rest : Elementary (DualNumber K)) : Elementary (DualNumber K) :=
  { rest with
    zero := 0
    one := 1
    two := 1 + 1
    guard := inl E.guard
    neg := Neg.neg
    add := (· + ·)
    sub := (· - ·)
    mul := (· * ·)
    div := fun x y => x * y⁻¹
    max := fun x y => if E.lt y.fst x.fst || E.eq x.fst y.fst && ties x y then x else y
    min := fun x y => if E.lt x.fst y.fst || E.eq x.fst y.fst && ties x y then x else y
    abs := fun x => if E.lt x.fst E.zero then -x else x
    lt := fun x y => E.lt x.fst y.fst
    le := fun x y => E.le x.fst y.fst
    eq := fun x y => E.eq x.fst y.fst
    isNaN := fun x => E.isNaN x.fst }

end Elementary

def UnaryOp.isAlgebraic : UnaryOp → Bool
  | .neg | .squared | .inverse | .abs => true
  | _ => false

def BinaryOp.isAlgebraic : BinaryOp → Bool
  | .atan2 | .pow => false
  | _ => true

def Node.isAlgebraic {α : Type} : Node α ι → Bool
  | unary o _ => o.isAlgebraic
  | binary o _ _ => o.isAlgebraic
  | _ => true

/-- At the values `V` of its operands and its own value `y` a node does not divide by zero or take
the absolute value of zero, and a maximum or minimum is attained by one operand alone. -/
def Node.Regular [Field K] (guard : K) (V : ι → K) (y : K) : Node K ι → Prop
  | unary .inverse x => V x + guard ≠ 0
  | unary .abs x => V x ≠ 0
  | binary .div _ z => V z + guard ≠ 0
  | binary .max x z | binary .min x z => ∃! c, c ∈ [x, z] ∧ V c = y
  | nary .max cs | nary .min cs => ∃! c, c ∈ cs ∧ V c = y
  | _ => True

def toDual [Field K] (p : K × K) : DualNumber K := inl p.1 + inr p.2

/-- The node over dual numbers whose own numbers have no infinitesimal part. -/
def Node.dual [Field K] (n : Node K ι) : Node (DualNumber K) ι :=
  Id.run (n.convertM fun x => pure (inl x))

/-- The vector in which position `i` is moved by the infinitesimal. -/
def perturbed [Field K] (xs : Array K) (i : Nat) : Array (DualNumber K) :=
  xs.mapIdx fun k x => toDual (x, if k = i then 1 else 0)

section
variable [Field K] [LinearOrder K]

namespace Elementary
variable (rest : Elementary K)

theorem exact_ofField : rest.ofField.adjoints.Exact where
  zero := rfl
  one := rfl
  add _ _ := rfl
  mul _ _ := rfl
  eq_zero _ h := of_decide_eq_true h

theorem ordered_ofField : rest.ofField.Ordered where
  le_total := by simp [ofField, le_total]
  le_trans := by
    simp only [ofField, decide_eq_true_eq]
    exact fun _ _ _ => le_trans
  eq_iff := by
    simp only [ofField, decide_eq_true_eq]
    exact fun _ _ => le_antisymm_iff
  max_cases := by simp [ofField, le_total]
  le_max := by simp [ofField]
  min_cases := by simp [ofField, le_total]
  min_le := by simp [ofField]

variable (ties : DualNumber K → DualNumber K → Bool) (rest' : Elementary (DualNumber K))
variable {xs : Array K} {i : Nat}

theorem tangent_unary (o : UnaryOp) (p : K × K) :
    Node.tangent rest.ofField.calculus xs i (.unary o p) = (rest.ofField.unaryValue o p.1,
      rest.ofField.unaryPartial o p.1 (rest.ofField.unaryValue o p.1) * p.2) := by
  simp [Node.tangent, Node.map, Node.value, Node.derivative, Node.partials, Node.operands, calculus,
    rules, partials]

theorem unaryValue_dual [IsStrictOrderedRing K] {o : UnaryOp} (ho : o.isAlgebraic = true) {p : K × K}
    (hinverse : o = .inverse → p.1 + rest.guard ≠ 0) (habs : o = .abs → p.1 ≠ 0) :
    (rest.ofField.dual ties rest').unaryValue o (toDual p) =
      toDual (Node.tangent rest.ofField.calculus xs i (.unary o p)) := by
  rw [tangent_unary]
  cases o with
  | neg =>
    simp only [unaryValue, unaryPartial, ofField, dual, toDual]
    ext <;> simp
  | squared =>
    simp only [unaryValue, unaryPartial, ofField, dual, toDual]
    ext <;> simp
    ring
  | inverse =>
    have hguard : p.1 + rest.guard ≠ 0 := hinverse rfl
    simp only [unaryValue, unaryPartial, ofField, dual, toDual]
    ext
    · simp
    · simp
      field_simp
  | abs =>
    simp only [unaryValue, unaryPartial, ofField, dual, toDual]
    rcases lt_or_gt_of_ne (habs rfl) with h | h
    · ext <;> simp [h, abs_of_neg]
    · ext <;> simp [h, abs_of_pos, not_lt.mpr h.le]
  | _ => cases ho

theorem truth_dual (b : Bool) :
    (rest.ofField.dual ties rest').truth b = toDual (rest.ofField.truth b, 0) := by
  cases b with
  | true => ext <;> simp [truth, ofField, dual, toDual]
  | false => ext <;> simp [truth, ofField, dual, toDual]

theorem truthy_dual (p : K × K) :
    (rest.ofField.dual ties rest').truthy (toDual p) = rest.ofField.truthy p.1 := by
  simp [truthy, dual, ofField, toDual]

theorem choice_dual {o : NaryOp} (ho : o ≠ .sum) (p q : K × K) :
    ∃ z ∈ [p, q], (rest.ofField.dual ties rest').binaryValue o.pairwise (toDual p) (toDual q) =
      toDual z ∧ z.1 = rest.ofField.binaryValue o.pairwise p.1 q.1 := by
  have hfst : ∀ p : K × K, (toDual p).fst = p.1 := by simp [toDual]
  cases o with
  | sum => exact absurd rfl ho
  | max =>
    simp only [NaryOp.pairwise, binaryValue, dual, hfst]
    split
    · next h =>
      refine ⟨p, by simp, rfl, (max_eq_left ?_).symm⟩
      simp only [ofField, Bool.or_eq_true, Bool.and_eq_true, decide_eq_true_eq] at h
      exact h.elim le_of_lt fun h => h.1.ge
    · next h =>
      refine ⟨q, by simp, rfl, (max_eq_right ?_).symm⟩
      simp only [ofField, Bool.or_eq_true, Bool.and_eq_true, decide_eq_true_eq, not_or] at h
      exact not_lt.mp h.1
  | min =>
    simp only [NaryOp.pairwise, binaryValue, dual, hfst]
    split
    · next h =>
      refine ⟨p, by simp, rfl, (min_eq_left ?_).symm⟩
      simp only [ofField, Bool.or_eq_true, Bool.and_eq_true, decide_eq_true_eq] at h
      exact h.elim le_of_lt fun h => h.1.le
    · next h =>
      refine ⟨q, by simp, rfl, (min_eq_right ?_).symm⟩
      simp only [ofField, Bool.or_eq_true, Bool.and_eq_true, decide_eq_true_eq, not_or] at h
      exact not_lt.mp h.1

theorem naryValue_choice_dual {o : NaryOp} (ho : o ≠ .sum) (p : K × K) (ps : List (K × K)) :
    ∃ z ∈ p :: ps, (rest.ofField.dual ties rest').naryValue o ((p :: ps).map toDual) = toDual z ∧
      z.1 = rest.ofField.naryValue o ((p :: ps).map Prod.fst) := by
  simp only [List.map_cons, naryValue_cons]
  induction ps generalizing p with
  | nil => exact ⟨p, by simp, rfl, rfl⟩
  | cons q ps ih =>
    obtain ⟨z, hz, hvalue, hfst⟩ := choice_dual rest ties rest' ho p q
    obtain ⟨w, hw, hvalue', hfst'⟩ := ih z
    rw [List.map_cons, List.foldl_cons, hvalue, List.map_cons, List.foldl_cons, ← hfst]
    refine ⟨w, ?_, hvalue', hfst'⟩
    rcases List.mem_cons.mp hw with rfl | hw
    · exact List.mem_append_left ps hz
    · simp [hw]

theorem naryValue_dual_of_attained {o : NaryOp} (ho : o ≠ .sum) {ps : List (K × K)} (hps : ps ≠ [])
    (hsingle : ∀ p ∈ ps, ∀ q ∈ ps, p.1 = rest.ofField.naryValue o (ps.map Prod.fst) →
      q.1 = rest.ofField.naryValue o (ps.map Prod.fst) → p = q) :
    (rest.ofField.dual ties rest').naryValue o (ps.map toDual) =
      toDual (Node.tangent rest.ofField.calculus xs i (.nary o ps)) := by
  obtain ⟨p, ps, rfl⟩ := List.exists_cons_of_ne_nil hps
  obtain ⟨z, hz, hvalue, hfst⟩ := naryValue_choice_dual rest ties rest' ho p ps
  have hnan : ∀ q ∈ p :: ps, rest.ofField.isNaN q.1 = false := fun _ _ => rfl
  obtain ⟨q, hq, htangent, -⟩ :=
    tangent_nary_attained rest.ofField.adjoints xs i (ordered_ofField rest) rfl rfl ho hnan
  have hqfst : q.1 = rest.ofField.naryValue o ((p :: ps).map Prod.fst) := by
    have hattains := List.find?_some hq
    simpa only [ofField, decide_eq_true_eq] using hattains
  have hzq : z = q := hsingle z hz q (List.mem_of_find?_eq_some hq) hfst hqfst
  rw [hvalue, hzq, ← calculusWith_adjoints, htangent, ← hqfst]

theorem naryValue_sum {M : Type} [AddCommMonoid M] {F : Elementary M} (hzero : F.zero = 0)
    (hadd : F.add = (· + ·)) (vs : List M) : F.naryValue .sum vs = vs.sum := by
  cases vs with
  | nil => exact hzero
  | cons v vs =>
    rw [naryValue_cons, List.sum_eq_foldl, List.foldl_cons, zero_add]
    exact congrArg (fun f => vs.foldl f v) hadd

omit [LinearOrder K] in
theorem sum_map_toDual (ps : List (K × K)) :
    (ps.map toDual).sum = toDual ((ps.map Prod.fst).sum, (ps.map Prod.snd).sum) := by
  induction ps with
  | nil => ext <;> simp [toDual]
  | cons p ps ih =>
    rw [List.map_cons, List.sum_cons, ih]
    ext <;> simp [toDual]

theorem naryValue_sum_dual (ps : List (K × K)) :
    (rest.ofField.dual ties rest').naryValue .sum (ps.map toDual) =
      toDual (Node.tangent rest.ofField.calculus xs i (.nary .sum ps)) := by
  have hpartials : (List.zipWith (· * ·) (rest.ofField.naryPartial .sum (ps.map Prod.fst)
      (rest.ofField.naryValue .sum (ps.map Prod.fst))) (ps.map Prod.snd)).sum = (ps.map Prod.snd).sum :=
    sum_zipWith_ones rfl ps
  rw [naryValue_sum rfl rfl, sum_map_toDual, ← calculusWith_adjoints, tangent_nary, hpartials,
    naryValue_sum rfl rfl]

variable (xs i) in
theorem naryValue_dual {o : NaryOp} {cs : List ι} {V : ι → K} (D : ι → K)
    (hattained : o ≠ .sum → ∃! c, c ∈ cs ∧ V c = rest.ofField.naryValue o (cs.map V)) :
    (rest.ofField.dual ties rest').naryValue o ((cs.map fun c => (V c, D c)).map toDual) =
      toDual (Node.tangent rest.ofField.calculus xs i (.nary o (cs.map fun c => (V c, D c)))) := by
  by_cases ho : o = .sum
  · subst ho
    exact naryValue_sum_dual rest ties rest' _
  · have hattained := hattained ho
    obtain ⟨c, hc, -⟩ := hattained.exists
    refine naryValue_dual_of_attained rest ties rest' ho (by simp [List.ne_nil_of_mem hc]) ?_
    rw [List.map_map]
    rintro p hp q hq hpy hqy
    obtain ⟨a, ha, rfl⟩ := List.mem_map.mp hp
    obtain ⟨b, hb, rfl⟩ := List.mem_map.mp hq
    rw [hattained.unique ⟨ha, hpy⟩ ⟨hb, hqy⟩]

theorem binaryValue_choice_dual {o : NaryOp} (ho : o ≠ .sum) {p q : K × K} (hpq : p.1 = q.1 → p = q) :
    (rest.ofField.dual ties rest').binaryValue o.pairwise (toDual p) (toDual q) =
      toDual (Node.tangent rest.ofField.calculus xs i (.binary o.pairwise p q)) := by
  have hpair : Node.tangent rest.ofField.calculus xs i (.nary o [p, q]) =
      Node.tangent rest.ofField.calculus xs i (.binary o.pairwise p q) :=
    tangent_nary_eq_foldl _ xs i rfl rfl (.inr ⟨ordered_ofField rest, fun _ _ => rfl⟩)
  have hvalue := naryValue_cons (rest.ofField.dual ties rest') o (toDual p) [toDual q]
  refine hvalue.symm.trans ((naryValue_dual_of_attained rest ties rest' ho (by simp) ?_).trans
    (congrArg toDual hpair))
  intro u hu w hw huy hwy
  simp only [List.mem_cons, List.not_mem_nil, or_false] at hu hw
  rcases hu with rfl | rfl <;> rcases hw with rfl | rfl
  · rfl
  · exact hpq (huy.trans hwy.symm)
  · exact (hpq (hwy.trans huy.symm)).symm
  · rfl

theorem binaryValue_dual {o : BinaryOp} (ho : o.isAlgebraic = true) {p q : K × K}
    (hdiv : o = .div → q.1 + rest.guard ≠ 0) (hpq : o = .max ∨ o = .min → p.1 = q.1 → p = q) :
    (rest.ofField.dual ties rest').binaryValue o (toDual p) (toDual q) =
      toDual (Node.tangent rest.ofField.calculus xs i (.binary o p q)) := by
  rw [← calculusWith_adjoints, tangent_binary]
  cases o with
  | add =>
    simp only [binaryValue, binaryPartial, ofField, dual, toDual]
    ext <;> simp
  | sub =>
    simp only [binaryValue, binaryPartial, ofField, dual, toDual]
    ext <;> simp
    ring
  | mul =>
    simp only [binaryValue, binaryPartial, ofField, dual, toDual]
    ext <;> simp
    ring
  | div =>
    have hguard : q.1 + rest.guard ≠ 0 := hdiv rfl
    simp only [binaryValue, binaryPartial, ofField, dual, toDual]
    ext
    · simp [div_eq_mul_inv]
    · simp
      field_simp
      ring
  | max =>
    rw [← tangent_binary rest.ofField.adjoints xs i]
    exact binaryValue_choice_dual rest ties rest' (o := .max) (by decide) (hpq (.inl rfl))
  | min =>
    rw [← tangent_binary rest.ofField.adjoints xs i]
    exact binaryValue_choice_dual rest ties rest' (o := .min) (by decide) (hpq (.inr rfl))
  | atan2 => cases ho
  | pow => cases ho
  | gt | lt | eq | and | or =>
    refine (truth_dual rest ties rest' _).trans ?_
    simp [binaryValue, binaryPartial, ofField, dual, toDual, truthy]

end Elementary

/-- What a node makes of dual numbers is its value with its derivative. -/
theorem Node.value_dual [IsStrictOrderedRing K] (rest : Elementary K)
    (ties : DualNumber K → DualNumber K → Bool) (rest' : Elementary (DualNumber K)) {xs : Array K}
    (i : Nat) {n : Node K ι} (halg : n.isAlgebraic = true) (hinput : ∀ k ∈ n.position?, k < xs.size)
    (V D : ι → K) (hreg : n.Regular rest.guard V ((n.map V).value rest.ofField.rules xs)) :
    (n.dual.map fun c => toDual (V c, D c)).value (rest.ofField.dual ties rest').rules (perturbed xs i) =
      toDual ((n.map fun c => (V c, D c)).tangent rest.ofField.calculus xs i) := by
  cases n with
  | const v =>
    show inl v = toDual (v, 0)
    simp [toDual]
  | input k s =>
    have hk : k < xs.size := hinput k rfl
    show (perturbed xs i)[k]?.getD (inl s) = toDual (xs[k]?.getD s, if k = i then 1 else 0)
    simp [perturbed, hk]
  | unary o x =>
    refine Elementary.unaryValue_dual rest ties rest' halg ?_ ?_
    · rintro rfl
      exact hreg
    · rintro rfl
      exact hreg
  | binary o x z =>
    refine Elementary.binaryValue_dual rest ties rest' halg ?_ ?_
    · rintro rfl
      exact hreg
    · rintro (rfl | rfl) hxz
      · obtain rfl : x = z := hreg.unique ⟨by simp, (max_eq_left (ge_of_eq hxz)).symm⟩
          ⟨by simp, (max_eq_right (le_of_eq hxz)).symm⟩
        rfl
      · obtain rfl : x = z := hreg.unique ⟨by simp, (min_eq_left (le_of_eq hxz)).symm⟩
          ⟨by simp, (min_eq_right (ge_of_eq hxz)).symm⟩
        rfl
  | select c t e =>
    -- the condition is decided by its standard part, and the chosen operand has partial one
    show (if (rest.ofField.dual ties rest').truthy (toDual (V c, D c)) then toDual (V t, D t)
        else toDual (V e, D e)) =
      toDual (if rest.ofField.truthy (V c) then V t else V e, (List.zipWith (· * ·)
        (if rest.ofField.truthy (V c) then [0, 1, 0] else [0, 0, 1]) [D c, D t, D e]).sum)
    rw [Elementary.truthy_dual]
    cases rest.ofField.truthy (V c) <;> simp
  | nary o cs =>
    have hattained : o ≠ .sum → ∃! c, c ∈ cs ∧ V c = rest.ofField.naryValue o (cs.map V) := by
      intro ho
      cases o with
      | sum => exact absurd rfl ho
      | max | min => exact hreg
    have hvalue := Elementary.naryValue_dual rest ties rest' xs i D hattained
    rwa [List.map_map] at hvalue
  | debug l x =>
    show toDual (V x, D x) = toDual (V x, 1 * D x + 0)
    rw [one_mul, add_zero]

end
end ScalarGraph
