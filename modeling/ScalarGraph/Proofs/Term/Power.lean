import ScalarGraph.Proofs.Tape.Shape
import ScalarGraph.Proofs.Term.Items

/-! # Integer powers

A power of the input with a natural exponent is compared with the product of as many factors, in
whatever way these are multiplied. The power is one node, whose partial multiplies the exponent with the power
before; the product shares the input among all its factors, and adds up what they pass on. Both
agree but for one place: at zero the power with exponent zero multiplies zero with the infinite
power `-1`, and its gradient is NaN there.
-/
namespace ScalarGraph
open Extended
variable {E : Elementary ℚ} {rest : Elementary Extended}

def Program.Shaped (R : Rules Extended) (p : Program Extended) (s : Shape) : Prop :=
  ∃ (t : Tape Extended) (r : Nat) (g : Graph Extended) (S : Nat → Shape), t.Valid ∧ r < t.size ∧
    t.Extracts (some r) [] g ∧ p.Compiles g ∧ t.net.Solves (Node.shape R) S ∧ S r = s

namespace Program
variable {p : Program Extended}

theorem Yields.shaped {R : Rules Extended} {n : Nat}
    {M : ∀ β : Type, (Node Extended β → β) → Option β × List β} (h : p.Yields R n M) {s : Shape}
    (hs : M Shape (Node.shape R) = (some s, [])) : p.Shaped R s := by
  obtain ⟨t, primary, secondary, g, ht, hroots, hextracts, hp, -, hmeaning⟩ := h
  have : Nonempty Shape := ⟨.other⟩
  obtain ⟨S, hS⟩ := ht.ranked.exists_solves (Node.shape R)
  have hroot := hmeaning Shape _ (Node.folds_shape R) S hS
  rw [hs] at hroot
  obtain ⟨hprimary, hsecondary⟩ := Prod.mk.inj hroot
  obtain ⟨r, rfl, hr⟩ := Option.map_eq_some_iff.mp hprimary
  obtain rfl := List.map_eq_nil_iff.mp hsecondary
  exact ⟨t, r, g, S, ht, hroots r List.mem_cons_self, hextracts, hp, hS, hr⟩

/-- The entries of the gradient of a product: no factors are the constant one. -/
theorem Shaped.product_gradient {n : ℕ} (h : p.Shaped (E.extended rest).rules
      (if n = 0 then .constant (finite 1) else .factors (n - 1))) {ys : Array Extended} {x : ℚ}
    (hx : ys[0]? = some (finite x)) {out : Outputs Extended}
    (hrun : p.run (E.extended rest).calculus ys = some out) {i : Nat} {d : Extended}
    (hd : out.gradient[i]? = some d) : d = if i = 0 then finite (n * x ^ (n - 1)) else finite 0 := by
  obtain ⟨t, r, g, S, ht, hr, hg, hp, hS, hSr⟩ := h
  cases n with
  | zero =>
    rw [Tape.Extracts.gradient_of_constant hg ht hr hp hS hrun hSr hd]
    simp
  | succ n =>
    rw [Tape.Extracts.gradient_of_factors hg ht hr hp hS hrun hSr hx hd, Nat.cast_succ]
    rfl

theorem Shaped.power_gradient {n : ℕ} (h : p.Shaped (E.extended rest).rules (.power (finite n)))
    {ys : Array Extended} {x : ℚ} (hx : ys[0]? = some (finite x)) {out : Outputs Extended}
    (hrun : p.run (E.extended rest).calculus ys = some out) {i : Nat} {d : Extended}
    (hd : out.gradient[i]? = some d) :
    d = if i = 0 then (if n = 0 ∧ x = 0 then nan else finite (n * x ^ (n - 1))) else finite 0 := by
  obtain ⟨t, r, g, S, ht, hr, hg, hp, hS, hSr⟩ := h
  exact Tape.Extracts.gradient_of_power hg ht hr hp hS hrun hSr hx hd

end Program

namespace Term
variable {ν : Type}

/-- A product of `n` factors that all are the leaf `x`, multiplied in any way; for no factors it is one. -/
inductive Product (x : ν) : ℕ → Term Extended ν → Prop
  | one : Product x 0 (number (finite 1))
  | factor : Product x 1 (leaf x)
  | mul {m n : ℕ} {t u : Term Extended ν} (hm : 0 < m) (hn : 0 < n) (ht : Product x m t)
      (hu : Product x n u) : Product x (m + n) (mul t u)

def power (x : ν) (n : ℕ) : Term Extended ν := binary .pow (leaf x) (number (finite n))

namespace Product
variable {R : Rules Extended} {x : ν} {n : ℕ} {t : Term Extended ν}

theorem fold_shape (h : Product x n t) {leafShape : ν → Shape} (hx : leafShape x = .factors 0) :
    t.fold (Node.shape R) leafShape = if n = 0 then .constant (finite 1) else .factors (n - 1) := by
  induction h with
  | one => rfl
  | factor => exact hx
  | @mul m n t u hm hn _ _ iht ihu =>
    rw [if_neg (by omega)] at iht ihu
    show Node.shape R (.binary .mul (t.fold (Node.shape R) leafShape) (u.fold (Node.shape R) leafShape)) = _
    rw [iht, ihu, if_neg (by omega)]
    show Shape.factors (m - 1 + (n - 1) + 1) = _
    congr 1
    omega

theorem fold_value (h : Product x n t) {ys : Array Extended} {leafValue : ν → Extended} {a : ℚ}
    (hx : leafValue x = finite a) :
    t.fold (Node.value (E.extended rest).rules ys) leafValue = finite (a ^ n) := by
  induction h with
  | one => exact congrArg finite (pow_zero a).symm
  | factor =>
    rw [pow_one]
    exact hx
  | mul hm hn _ _ iht ihu =>
    show Extended.mul (fold _ _ _) (fold _ _ _) = _
    rw [iht, ihu, pow_add]
    rfl

theorem over_input (h : Product x n t) : t.Over (· = x) := by
  induction h with
  | one => exact over_number _
  | factor => exact over_leaf.mpr rfl
  | mul hm hn _ _ iht ihu => exact over_binary.mpr ⟨iht, ihu⟩

end Product

end Term

def Workspace.Item.IsFirst {w : Workspace Extended} (e : w.Item) : Prop :=
  ∃ h s, e.operand = .handle h ∧ h.tape = w.active ∧
    (w.tape h.tape).nodes[h.index]? = some (.input 0 s)

namespace Term
section
variable (E rest)
variable {w : Workspace Extended} {e : w.Item} (hw : w.Ready) (he : e.IsFirst) (settings : Option Settings)
include hw he

/-- A term over the input is built, and its program has the value and the shape of the tree. -/
theorem exists_shaped {t : Term Extended w.Item} (ht : t.Over (· = e)) (x : ℚ) :
    ∃ p v out, (outputs (E.extended rest).rules Workspace.Item.find settings (some t) []).run w = (.ok p, v) ∧
      p.run (E.extended rest).calculus #[finite x] = some out ∧
      out.primary = some (t.fold (Node.value (E.extended rest).rules #[finite x]) fun _ => finite x) ∧
      out.gradient.size = max (w.tape w.active).numInputs 1 ∧
      p.Shaped (E.extended rest).rules
        (t.fold (Node.shape (E.extended rest).rules) fun _ => .factors 0) := by
  obtain ⟨h, s, hh, hactive, hnode⟩ := he
  have hplace : e.Active := by
    right
    rw [Workspace.Item.place, hh, ← hactive]
    rfl
  have hmeaning : ∀ {β : Type} (f : Node Extended β → β),
      (t.fold f fun l => (l.operand.tree w).meaning f) = t.fold f fun _ => f (.input 0 s) := by
    intro β f
    refine fold_congr t (ht.imp fun l hl => ?_)
    rw [hl, hh, Operand.tree, (hw.valid h.tape).unfolding_eq hnode]
    rfl
  have hroots : ∀ l ∈ (some t).toList ++ [],
      l.rootTape w.active Workspace.Item.place = some w.active := by
    refine List.forall_mem_singleton.mpr ?_
    obtain ⟨l, hl, rfl | rfl⟩ := exists_place_of_over (ht.imp fun l hl => hl ▸ hplace) <;>
      rw [rootTape, hl] <;> rfl
  have hne : (some t).toList ++ [] ≠ [] := List.cons_ne_nil t []
  obtain ⟨p, v, hrun, hyields⟩ := exists_outputs
    (fun β f hf => Workspace.Item.locates hw hf (.refl w)) (fun v hv => hv.1) hw
    ⟨fun _ _ _ _ h => h, .refl w⟩ settings hne hroots
  obtain ⟨out, hout, hprimary, -, hsize, -⟩ :=
    hyields.exists_run (C := (E.extended rest).calculus) #[finite x]
  refine ⟨p, v, out, hrun, hout, ?_, hsize, hyields.shaped ?_⟩
  · rw [hprimary]
    exact congrArg some (hmeaning _)
  · exact congrArg (some · , []) (hmeaning _)

/-- Powers of the input with natural exponents agree with products of as many factors in value and gradient,
but for the exponent zero at zero: there the gradient of the power is NaN. -/
theorem Product.agrees_with_power {n : ℕ} {t : Term Extended w.Item} (ht : Product e n t) (x : ℚ) :
    ∃ p q u v out out',
      (outputs (E.extended rest).rules Workspace.Item.find settings (some t) []).run w = (.ok p, u) ∧
      (outputs (E.extended rest).rules Workspace.Item.find settings (some (power e n)) []).run w =
        (.ok q, v) ∧
      p.run (E.extended rest).calculus #[finite x] = some out ∧
      q.run (E.extended rest).calculus #[finite x] = some out' ∧
      out.primary = some (finite (x ^ n)) ∧ out'.primary = out.primary ∧
      0 < out.gradient.size ∧ out'.gradient.size = out.gradient.size ∧
      ∀ i d, out.gradient[i]? = some d →
        d = (if i = 0 then finite (n * x ^ (n - 1)) else finite 0) ∧
        out'.gradient[i]? = some (if i = 0 ∧ n = 0 ∧ x = 0 then nan else d) := by
  obtain ⟨p, u, out, hbuild, hrun, hprimary, hsize, hshaped⟩ :=
    exists_shaped E rest hw he settings ht.over_input x
  have hover : (power e n).Over (· = e) := over_binary.mpr ⟨over_leaf.mpr rfl, over_number _⟩
  obtain ⟨q, v, out', hbuild', hrun', hprimary', hsize', hshaped'⟩ :=
    exists_shaped E rest hw he settings hover x
  rw [ht.fold_shape rfl] at hshaped
  have hvalue : out.primary = some (finite (x ^ n)) := by rw [hprimary, ht.fold_value rfl]
  have hsame := hsize'.trans hsize.symm
  refine ⟨p, q, u, v, out, out', hbuild, hbuild', hrun, hrun', hvalue, ?_, by omega, hsame,
    fun i d hd => ?_⟩
  · rw [hvalue, hprimary']
    exact congrArg some (pow_finite rest.pow x n)
  · have hi : i < out'.gradient.size := hsame ▸ (Array.getElem?_eq_some_iff.mp hd).1
    have hentry := hshaped.product_gradient rfl hrun hd
    have hentry' := hshaped'.power_gradient rfl hrun' (Array.getElem?_eq_getElem hi)
    refine ⟨hentry, ?_⟩
    rw [Array.getElem?_eq_getElem hi, hentry', hentry]
    by_cases h0 : i = 0 <;> simp [h0]

end

/-- The third power at -2 and the power zero at 0, next to the products. -/
theorem agrees_with_power_cube_and_one : ∃ (w : Workspace Extended) (e : w.Item), w.Ready ∧ e.IsFirst ∧
    (∃ p q u v out out',
      (outputs (Graph.tenBillionth.extended default).rules (Workspace.Item.find (w := w)) none
        (some (mul (leaf e) (mul (leaf e) (leaf e)))) []).run w = (.ok p, u) ∧
      (outputs (Graph.tenBillionth.extended default).rules (Workspace.Item.find (w := w)) none
        (some (power e 3)) []).run w = (.ok q, v) ∧
      p.run (Graph.tenBillionth.extended default).calculus #[finite (-2)] = some out ∧
      q.run (Graph.tenBillionth.extended default).calculus #[finite (-2)] = some out' ∧
      out.primary = some (finite (-8)) ∧ out'.primary = some (finite (-8)) ∧
      out.gradient[0]? = some (finite 12) ∧ out'.gradient[0]? = some (finite 12)) ∧
    ∃ p q u v out out',
      (outputs (Graph.tenBillionth.extended default).rules (Workspace.Item.find (w := w)) none
        (some (number (finite 1))) []).run w = (.ok p, u) ∧
      (outputs (Graph.tenBillionth.extended default).rules (Workspace.Item.find (w := w)) none
        (some (power e 0)) []).run w = (.ok q, v) ∧
      p.run (Graph.tenBillionth.extended default).calculus #[finite 0] = some out ∧
      q.run (Graph.tenBillionth.extended default).calculus #[finite 0] = some out' ∧
      out.primary = some (finite 1) ∧ out'.primary = some (finite 1) ∧
      out.gradient[0]? = some (finite 0) ∧ out'.gradient[0]? = some nan := by
  obtain ⟨w, e, h, hw, hoperand, hactive, hnode, -⟩ := Workspace.Item.exists_declared (finite 0)
  have he : e.IsFirst := ⟨h, finite 0, hoperand, hactive, hnode⟩
  have hcube : Product e 3 (mul (leaf e) (mul (leaf e) (leaf e))) :=
    .mul (by decide) (by decide) .factor (.mul (by decide) (by decide) .factor .factor)
  refine ⟨w, e, hw, he, ?_, ?_⟩
  · obtain ⟨p, q, u, v, out, out', hp, hq, hrun, hrun', hvalue, hsame, hpos, -, hgradient⟩ :=
      Product.agrees_with_power Graph.tenBillionth default hw he none hcube (-2)
    obtain ⟨hentry, hentry'⟩ := hgradient 0 _ (Array.getElem?_eq_getElem hpos)
    have hprimary : out.primary = some (finite (-8)) := by
      rw [hvalue]
      norm_num
    refine ⟨p, q, u, v, out, out', hp, hq, hrun, hrun', hprimary, hsame.trans hprimary, ?_, ?_⟩
    · rw [Array.getElem?_eq_getElem hpos, hentry]
      norm_num
    · rw [hentry', hentry]
      norm_num
  · obtain ⟨p, q, u, v, out, out', hp, hq, hrun, hrun', hvalue, hsame, hpos, -, hgradient⟩ :=
      Product.agrees_with_power Graph.tenBillionth default hw he none .one 0
    obtain ⟨hentry, hentry'⟩ := hgradient 0 _ (Array.getElem?_eq_getElem hpos)
    have hprimary : out.primary = some (finite 1) := by
      rw [hvalue]
      norm_num
    refine ⟨p, q, u, v, out, out', hp, hq, hrun, hrun', hprimary, hsame.trans hprimary, ?_, ?_⟩
    · rw [Array.getElem?_eq_getElem hpos, hentry]
      norm_num
    · rw [hentry']
      norm_num

end Term
end ScalarGraph
