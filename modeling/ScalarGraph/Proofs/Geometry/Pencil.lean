import ScalarGraph.Geometry.Pencil
import ScalarGraph.Proofs.Term.Arithmetic
import ScalarGraph.Proofs.Term.Items
import ScalarGraph.Proofs.Term.Reduction

/-! # The polynomial of a pencil of ellipses

The level functions `F` and `G` of two ellipses span the pencil of `(1 - t) F + t G`, which has a critical
point wherever neither of its weights is zero. The polynomial of the ellipses is the difference `G - F`
there, cleared of denominators. So it changes its sign when the ellipses are swapped and `t` is reflected.
-/
namespace ScalarGraph
variable {α ν τ σ : Type}

def Ellipse.map (f : τ → σ) (e : Ellipse τ) : Ellipse σ := ⟨f e.a, f e.b, f e.c, f e.x, f e.y⟩

section
variable [DecidableEq α] [Hashable α] {w : Workspace α}

namespace Ellipse

def terms (e : Ellipse w.Item) : Ellipse (Term α w.Item) := e.map Term.leaf

def values (R : Rules α) (xs : Array α) (e : Ellipse w.Item) : Ellipse α := e.map (Workspace.Item.value R xs)

def levelAt (R : Rules α) (xs : Array α) (e : Ellipse w.Item) (x y : α) : α :=
  (e.terms.level (.number x) (.number y)).value R (Workspace.Item.value R xs)

theorem over_terms {P : w.Item → Prop} {e : Ellipse w.Item} (h : ∀ x ∈ [e.a, e.b, e.c, e.x, e.y], P x) :
    e.terms.Over P := by
  simp only [List.forall_mem_cons] at h
  obtain ⟨ha, hb, hc, hx, hy, -⟩ := h
  exact ⟨Term.over_leaf.mpr ha, Term.over_leaf.mpr hb, Term.over_leaf.mpr hc, Term.over_leaf.mpr hx,
    Term.over_leaf.mpr hy⟩

theorem over_true (e : Ellipse w.Item) : e.terms.Over fun _ => True := over_terms fun _ _ => trivial

end Ellipse
end

namespace Pencil

section
variable [CommRing α] {E : Elementary α} (leafValue : ν → α)

/-- The value at `t` of the polynomial with the given coefficients, the lowest degree first. -/
def polynomialAt (t : α) : List α → α
  | [] => 0
  | c :: cs => c + t * polynomialAt t cs

def weight (a b t : α) : α := a + t * (b - a)

/-- The difference of the level functions at the critical point of the pencil, times the squares of its
weights. -/
def clearedDifference (p q : Ellipse α) (t : α) : α :=
  (p.c - q.c) * weight p.a q.a t ^ 2 * weight p.b q.b t ^ 2 +
    p.a * q.a * (q.x - p.x) ^ 2 * weight p.b q.b t ^ 2 * (p.a * (1 - t) ^ 2 - q.a * t ^ 2) +
    p.b * q.b * (q.y - p.y) ^ 2 * weight p.a q.a t ^ 2 * (p.b * (1 - t) ^ 2 - q.b * t ^ 2)

/-- Half of each partial of the pencil is zero at the point. -/
def Critical (p q : Ellipse α) (t x y : α) : Prop :=
  (1 - t) * (p.a * (x - p.x)) + t * (q.a * (x - q.x)) = 0 ∧
    (1 - t) * (p.b * (y - p.y)) + t * (q.b * (y - q.y)) = 0

def member (t : α) (p q : Ellipse (Term α ν)) (x y : Term α ν) : Term α ν :=
  .add (.mul (.sub (.number 1) (.number t)) (p.level x y)) (.mul (.number t) (q.level x y))

/-- At a critical point the chain rule gives zero for both partials of the member of the pencil. -/
theorem Critical.derivative_eq_zero (hE : E.Ring) (hone : E.one = 1) (htwo : E.two = 2) {p q : Ellipse α}
    {t x y : α} (h : Critical p q t x y) {leafDerivative : Bool → α} :
    (member t (p.map .number) (q.map .number) (.leaf false) (.leaf true)).derivative E.calculus
      (fun l => if l then y else x) leafDerivative = 0 := by
  obtain ⟨hx, hy⟩ := h
  simp only [member, Ellipse.level, Ellipse.map, Term.add, Term.sub, Term.mul, Term.squared,
    Term.derivative, Elementary.calculus, Elementary.partials, Elementary.unaryPartial,
    Elementary.binaryPartial, Term.value, Elementary.rules, Elementary.unaryValue, Elementary.binaryValue,
    hE.neg, hE.add, hE.sub, hE.mul, hone, htwo, Bool.false_eq_true, if_true, if_false]
  linear_combination 2 * leafDerivative false * hx + 2 * leafDerivative true * hy

theorem polynomialAt_coefficients (hE : E.Ring) (p q : Ellipse (Term α ν)) (t : α) :
    polynomialAt t ((coefficients Nat.cast p q).map (Term.value E.rules leafValue)) =
      clearedDifference (p.map (Term.value E.rules leafValue)) (q.map (Term.value E.rules leafValue)) t := by
  simp only [coefficients, alpha0, alpha1, alpha2, alpha3, alpha4, quadraticC, quadraticX, quadraticY,
    scale, num, Term.value_num, Term.value_add, Term.value_sub, Term.value_mul, Term.value_neg,
    Term.value_squared, hE.neg, hE.add, hE.sub, hE.mul, List.map, polynomialAt, clearedDifference, weight,
    Ellipse.map]
  push_cast
  ring

theorem sq_weight_mul_difference {a b p q t x : α} (h : (1 - t) * (a * (x - p)) + t * (b * (x - q)) = 0) :
    weight a b t ^ 2 * (b * (x - q) ^ 2 - a * (x - p) ^ 2) =
      a * b * (q - p) ^ 2 * (a * (1 - t) ^ 2 - b * t ^ 2) := by
  have hq : weight a b t * (x - q) = -((1 - t) * a * (q - p)) := by
    unfold weight
    linear_combination h
  have hp : weight a b t * (x - p) = t * b * (q - p) := by
    unfold weight
    linear_combination h
  calc weight a b t ^ 2 * (b * (x - q) ^ 2 - a * (x - p) ^ 2)
      = b * (weight a b t * (x - q)) ^ 2 - a * (weight a b t * (x - p)) ^ 2 := by ring
    _ = a * b * (q - p) ^ 2 * (a * (1 - t) ^ 2 - b * t ^ 2) := by
        rw [hq, hp]
        ring

theorem value_level (hE : E.Ring) (e : Ellipse (Term α ν)) (x y : Term α ν) :
    (e.level x y).value E.rules leafValue =
      e.a.value E.rules leafValue * (x.value E.rules leafValue - e.x.value E.rules leafValue) ^ 2 +
        e.b.value E.rules leafValue * (y.value E.rules leafValue - e.y.value E.rules leafValue) ^ 2 -
        e.c.value E.rules leafValue := by
  simp only [Ellipse.level, Term.value_add, Term.value_sub, Term.value_mul, Term.value_squared, hE.add,
    hE.sub, hE.mul]
  ring

/-- The cleared difference is that of the level functions at the critical point. -/
theorem clearedDifference_of_critical (hE : E.Ring) (p q : Ellipse (Term α ν)) {t x y : α}
    (h : Critical (p.map (Term.value E.rules leafValue)) (q.map (Term.value E.rules leafValue)) t x y) :
    clearedDifference (p.map (Term.value E.rules leafValue)) (q.map (Term.value E.rules leafValue)) t =
      weight (p.a.value E.rules leafValue) (q.a.value E.rules leafValue) t ^ 2 *
        weight (p.b.value E.rules leafValue) (q.b.value E.rules leafValue) t ^ 2 *
        ((q.level (.number x) (.number y)).value E.rules leafValue -
          (p.level (.number x) (.number y)).value E.rules leafValue) := by
  have hx := sq_weight_mul_difference h.1
  have hy := sq_weight_mul_difference h.2
  simp only [Ellipse.map] at hx hy
  simp only [value_level leafValue hE, Term.value_num, clearedDifference, Ellipse.map]
  linear_combination (-weight (p.b.value E.rules leafValue) (q.b.value E.rules leafValue) t ^ 2) * hx -
    weight (p.a.value E.rules leafValue) (q.a.value E.rules leafValue) t ^ 2 * hy

theorem clearedDifference_swap (p q : Ellipse α) (t : α) :
    clearedDifference q p t = -clearedDifference p q (1 - t) := by
  unfold clearedDifference weight
  ring

end

theorem isOperator_coefficients (numeral : Nat → α) (p q : Ellipse (Term α ν)) :
    ∀ e ∈ coefficients numeral p q, e.IsOperator := by
  simp [coefficients, alpha0, alpha1, alpha2, alpha3, alpha4, Term.mul, Term.add, Term.neg,
    Term.IsOperator]

section
variable [DecidableEq α] [Hashable α] {w v : Workspace α} {p q : Ellipse w.Item}

theorem safe_buildCoefficients (numeral : Nat → α) (R : Rules α) (hw : w.Ready) (hv : v.Ready)
    (hwv : w.Grows v) {P : w.Item → Prop} (hp : p.terms.Over P) (hq : q.terms.Over P) :
    (buildCoefficients numeral Workspace.Item.find R p.terms q.terms).Safe v (w.Misplaced P) fun cs u =>
      v.AddsNoInput u ∧
        List.Forall₂ (Term.Amounts R w.active u) (coefficients numeral p.terms q.terms) cs :=
  Term.safe_buildAfter_over R hw hv hwv (over_steps numeral hp hq) (over_coefficients numeral hp hq)

variable [Written α]

theorem forall₂_computes {C : Calculus α} {numeral : Nat → α} {active : Nat} (hv : v.Ready)
    {cs : List (Operand α)}
    (h : List.Forall₂ (Term.Amounts C.rules active v) (coefficients numeral p.terms q.terms) cs) :
    List.Forall₂ (Operand.Computes C v) cs ((coefficients numeral p.terms q.terms).map fun e xs =>
      e.value C.rules (Workspace.Item.value C.rules xs)) := by
  rw [List.forall₂_map_right_iff]
  have hboth := (List.forall₂_and_left _ _).mpr ⟨isOperator_coefficients numeral p.terms q.terms, h⟩
  exact (hboth.imp fun _ _ hx => hx.2.computes hx.1 hv).flip

variable [CommRing α] {E : Elementary α}

theorem exists_computes_polynomial (hE : E.Ring) {active : Nat} (hv : v.Ready)
    {cs : List (Operand α)}
    (h : List.Forall₂ (Term.Amounts E.rules active v) (coefficients Nat.cast p.terms q.terms) cs) :
    ∃ as : List (Array α → α), as.length = 5 ∧ List.Forall₂ (Operand.Computes E.calculus v) cs as ∧
      ∀ xs t, polynomialAt t (as.map (· xs)) =
        clearedDifference (p.values E.rules xs) (q.values E.rules xs) t := by
  refine ⟨_, rfl, forall₂_computes hv h, fun xs t => ?_⟩
  rw [List.map_map]
  exact polynomialAt_coefficients _ hE _ _ t

/-- In every commutative ring the coefficients of two ellipses can be built on the active tape. Wherever
they are built they compute, at every vector, those of the difference of the level functions at the
critical point of the pencil, cleared of denominators. When the ellipses are swapped they compute those
of the opposite polynomial, reflected. -/
theorem coefficients_compute_difference (hE : E.Ring) (hw : w.Ready) (p q : Ellipse w.Item) :
    (p.terms.Over Workspace.Item.Active → q.terms.Over Workspace.Item.Active →
      ∃ cs v, (buildCoefficients Nat.cast Workspace.Item.find E.rules p.terms q.terms).run w =
        (.ok cs, v)) ∧
    ∀ cs v, (buildCoefficients Nat.cast Workspace.Item.find E.rules p.terms q.terms).run w = (.ok cs, v) →
      ∃ as : List (Array α → α), as.length = 5 ∧ List.Forall₂ (Operand.Computes E.calculus v) cs as ∧
        (∀ xs t, let P := p.values E.rules xs
          let Q := q.values E.rules xs
          polynomialAt t (as.map (· xs)) = clearedDifference P Q t ∧
          ∀ x y, Critical P Q t x y → polynomialAt t (as.map (· xs)) =
            weight P.a Q.a t ^ 2 * weight P.b Q.b t ^ 2 *
              (q.levelAt E.rules xs x y - p.levelAt E.rules xs x y)) ∧
        ∀ (u s : Workspace α) (ds : List (Operand α)), u.Ready → w.Grows u →
          (buildCoefficients Nat.cast Workspace.Item.find E.rules q.terms p.terms).run u = (.ok ds, s) →
          ∃ bs : List (Array α → α), bs.length = 5 ∧ List.Forall₂ (Operand.Computes E.calculus s) ds bs ∧
            ∀ xs t, polynomialAt t (bs.map (· xs)) = -polynomialAt (1 - t) (as.map (· xs)) := by
  refine ⟨fun hp hq => ?_, fun cs v hrun => ?_⟩
  · obtain ⟨cs, v, hrun, -⟩ := ((safe_buildCoefficients Nat.cast E.rules hw hw (.refl w) hp hq).weaken
      Workspace.not_misplaced).exists_run
    exact ⟨cs, v, hrun⟩
  · obtain ⟨hv, -, -, hcs⟩ :=
      (safe_buildCoefficients Nat.cast E.rules hw hw (.refl w) p.over_true q.over_true).of_run hrun
    obtain ⟨as, hlength, has, hpolynomial⟩ := exists_computes_polynomial hE hv hcs
    refine ⟨as, hlength, has, fun xs t => ⟨hpolynomial xs t, fun x y hcritical => ?_⟩,
      fun u s ds hu hwu hrun' => ?_⟩
    · rw [hpolynomial xs t]
      exact clearedDifference_of_critical (Workspace.Item.value E.rules xs) hE p.terms q.terms hcritical
    · obtain ⟨hs, -, -, hds⟩ :=
        (safe_buildCoefficients Nat.cast E.rules hw hu hwu q.over_true p.over_true).of_run hrun'
      obtain ⟨bs, hlength', hbs, hswapped⟩ := exists_computes_polynomial hE hs hds
      refine ⟨bs, hlength', hbs, fun xs t => ?_⟩
      rw [hswapped, hpolynomial]
      exact clearedDifference_swap _ _ t

end

/-- The unit circle about the origin, and an ellipse whose centre is at an input. -/
theorem coefficients_compute_difference_inputCentre : ∃ (w v : Workspace ℚ) (x : w.Item)
    (cs : List (Operand ℚ)) (as : List (Array ℚ → ℚ)), w.Ready ∧ x.place = some w.active ∧
      let number := Workspace.Item.number w
      let p : Ellipse w.Item := ⟨number 1, number 1, number 1, number 0, number 0⟩
      let q : Ellipse w.Item := ⟨number 2, number 3, number 1, x, number 1⟩
      (buildCoefficients Nat.cast Workspace.Item.find Elementary.rationals.rules p.terms q.terms).run w =
        (.ok cs, v) ∧
      List.Forall₂ (Operand.Computes Elementary.rationals.calculus v) cs as ∧
      polynomialAt 2 (as.map (· #[5])) = -9047 := by
  obtain ⟨w, x, hw, hplace, -, hx, -⟩ := Workspace.Item.exists_input (3 : ℚ)
  let number := Workspace.Item.number w
  let p : Ellipse w.Item := ⟨number 1, number 1, number 1, number 0, number 0⟩
  let q : Ellipse w.Item := ⟨number 2, number 3, number 1, x, number 1⟩
  have hnumber : ∀ a, (number a).Active := fun a => .inl rfl
  have hinput : x.Active := .inr hplace
  have hp : p.terms.Over Workspace.Item.Active := Ellipse.over_terms (by simp [p, hnumber])
  have hq : q.terms.Over Workspace.Item.Active := Ellipse.over_terms (by simp [q, hnumber, hinput])
  obtain ⟨hexists, hcomputes⟩ :=
    coefficients_compute_difference (Elementary.ring_ofField default) hw p q
  obtain ⟨cs, v, hrun⟩ := hexists hp hq
  obtain ⟨as, -, has, hpolynomial, -⟩ := hcomputes cs v hrun
  refine ⟨w, v, x, cs, as, hw, hplace, hrun, has, ?_⟩
  rw [(hpolynomial #[5] 2).1]
  simp only [Ellipse.values, Ellipse.map, p, q, number, Workspace.Item.value_number, hx,
    clearedDifference, weight]
  norm_num

end Pencil
end ScalarGraph
