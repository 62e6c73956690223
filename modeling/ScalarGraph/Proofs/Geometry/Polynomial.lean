import ScalarGraph.Proofs.Geometry.Pencil
import ScalarGraph.Proofs.Workspace.Sampling

/-! # The monic polynomial of a pencil

The degree of the polynomial of two ellipses is that of its coefficients at the sample values of the inputs.
There no coefficient is lost: those above the degree are zero, and the quotients of those below it by the
leading one are what is given.
-/
namespace ScalarGraph.Pencil
variable {α : Type}

/-- The degree is the last position that is not zero, and zero where there is none. -/
theorem degree_spec (nonzero : List Bool) : (∀ j, degree nonzero < j → nonzero[j]? ≠ some true) ∧
    (degree nonzero = 0 ∨ nonzero[degree nonzero]? = some true) := by
  obtain ⟨-, hmem⟩ := (foldl_max_le_iff Prod.snd).mp (Nat.le_refl (degree nonzero))
  have hmem_iff : ∀ j, (true, j) ∈ nonzero.zipIdx.filter (fun p => p.1) ↔ nonzero[j]? = some true := by
    simp [List.mem_zipIdx_iff_getElem?]
  refine ⟨fun j hj htrue => ?_, ?_⟩
  · exact absurd (hmem _ ((hmem_iff j).mpr htrue)) (Nat.not_le_of_lt hj)
  · rcases foldl_max_eq_or Prod.snd (nonzero.zipIdx.filter fun p => p.1) 0 with hzero | ⟨⟨b, j⟩, hp, hj⟩
    · exact .inl hzero
    · obtain rfl : b = true := (List.mem_filter.mp hp).2
      have htrue := (hmem_iff j).mp hp
      rw [show j = degree nonzero from hj] at htrue
      exact .inr htrue

theorem degree_lt (nonzero : List Bool) (h : nonzero ≠ []) : degree nonzero < nonzero.length := by
  rcases (degree_spec nonzero).2 with hzero | htrue
  · rw [hzero]
    exact List.length_pos_iff.mpr h
  · exact (List.getElem?_eq_some_iff.mp htrue).1

section
variable [DecidableEq α] [Hashable α] {w v u s : Workspace α}

def coefficientAt (E : Elementary α) (numeral : Nat → α) (p q : Ellipse w.Item) (i : Nat)
    (xs : Array α) : α :=
  ((coefficients numeral p.terms q.terms).map
    (Term.value E.rules (Workspace.Item.value E.rules xs))).getD i E.zero

theorem coefficientAt_eq {E : Elementary α} {numeral : Nat → α} {p q : Ellipse w.Item} {i : Nat}
    {e : Term α w.Item} (h : (coefficients numeral p.terms q.terms)[i]? = some e) :
    coefficientAt E numeral p q i = fun xs => e.value E.rules (Workspace.Item.value E.rules xs) := by
  funext xs
  rw [coefficientAt, List.getD_eq_getElem?_getD, List.getElem?_map, h]
  rfl

theorem map_value_coefficients (E : Elementary α) (numeral : Nat → α) (p q : Ellipse w.Item)
    (xs : Array α) : (coefficients numeral p.terms q.terms).map
      (Term.value E.rules (Workspace.Item.value E.rules xs)) =
        (List.range 5).map fun i => coefficientAt E numeral p q i xs := rfl

variable {E : Elementary α} {numeral : Nat → α} {p q : Ellipse w.Item}

theorem forall₂_denotes_coefficients {active : Nat} {cs : List (Operand α)}
    (h : List.Forall₂ (Term.Amounts E.rules active u) (coefficients numeral p.terms q.terms) cs)
    (xs : Array α) : List.Forall₂ (Operand.Denotes (Node.value E.rules xs) u) cs
      ((List.range 5).map fun i => coefficientAt E numeral p q i xs) := by
  rw [← map_value_coefficients, List.forall₂_map_right_iff]
  exact (h.imp fun _ _ hx => hx.denotes xs).flip

variable [Written α]

theorem of_numbersOf_coefficients (hw : w.Ready) (hv : v.Ready) (hwv : w.Grows v)
    {cs : List (Operand α)} {alphas : List α}
    (hcs : (buildCoefficients numeral Workspace.Item.find E.rules p.terms q.terms).run v = (.ok cs, u))
    (halphas : (numbersOf E.calculus cs).run u = (.ok alphas, s)) :
    List.Forall₂ (Term.Amounts E.rules w.active u) (coefficients numeral p.terms q.terms) cs ∧
      alphas = (List.range 5).map (fun i => coefficientAt E numeral p q i #[]) ∧ u.Ready ∧ s.Ready ∧
      w.Grows s := by
  obtain ⟨hu, hvu, -, hamounts⟩ :=
    (safe_buildCoefficients numeral E.rules hw hv hwv p.over_true q.over_true).of_run hcs
  obtain ⟨rfl, log, rfl⟩ := eq_of_numbersOf hu (forall₂_denotes_coefficients hamounts #[]) halphas
  exact ⟨hamounts, rfl, hu, hu.withLog log, (hwv.trans hvu).trans (u.grows_withLog log)⟩

theorem exists_numbersOf_coefficients (E : Elementary α) (numeral : Nat → α) (hw : w.Ready)
    (hv : v.Ready) (hwv : w.Grows v) (hp : p.terms.Over Workspace.Item.Active)
    (hq : q.terms.Over Workspace.Item.Active)
    (hlimit : (v.tape w.active).numInputs < Program.lengthLimit) :
    ∃ cs u alphas log,
      (buildCoefficients numeral Workspace.Item.find E.rules p.terms q.terms).run v = (.ok cs, u) ∧
      (numbersOf E.calculus cs).run u = (.ok alphas, { u with log }) ∧ u.Ready ∧ v.Grows u ∧
      v.AddsNoInput u := by
  obtain ⟨cs, u, hcs, hu, hvu, hinput, hamounts⟩ :=
    ((safe_buildCoefficients numeral E.rules hw hv hwv hp hq).weaken Workspace.not_misplaced).exists_run
  have htape : ∀ y, .handle y ∈ cs → y.tape = w.active := by
    intro y hy
    obtain ⟨e, he, hamount⟩ := exists_of_forall₂_right hamounts hy
    obtain ⟨l, hl, hactive⟩ := Term.exists_place_of_over (over_coefficients numeral hp hq e he)
    rw [hamount.place] at hl
    obtain rfl : some y.tape = l := Option.some.inj hl
    simpa using hactive
  obtain ⟨log, halphas⟩ := run_numbersOf (C := E.calculus) hu
    (forall₂_denotes_coefficients hamounts #[]) htape
  rw [hvu.numInputs_eq hv hu hinput, if_pos (.inr hlimit)] at halphas
  exact ⟨cs, u, _, log, hcs, halphas, hu, hvu, hinput⟩

omit [DecidableEq α] [Hashable α] [Written α] in
/-- A polynomial without coefficients above `d` is that of the quotients, multiplied out. -/
theorem sum_quotients [Field α] {a : Nat → α} {d n : Nat} (hd : d < n)
    (hzero : ∀ j < n, d < j → a j = 0) {g : α} (hg : a d + g ≠ 0) (t : α) :
    (a d + g) * (∑ i ∈ Finset.range d, a i / (a d + g) * t ^ i) + a d * t ^ d =
      ∑ i ∈ Finset.range n, a i * t ^ i := by
  have hsum : ∑ i ∈ Finset.range (d + 1), a i * t ^ i = ∑ i ∈ Finset.range n, a i * t ^ i := by
    apply Finset.sum_subset (Finset.range_mono hd)
    intro j hj hjd
    rw [hzero j (Finset.mem_range.mp hj) (by simpa using hjd), zero_mul]
  rw [← hsum, Finset.sum_range_succ, Finset.mul_sum]
  congr 1
  apply Finset.sum_congr rfl
  intro i _
  field_simp

/-- The length of `rs` is the degree at the samples of the polynomial with the coefficients `a`, and `rs`
computes the quotients of those below the leading one by it. -/
structure Reduces (E : Elementary α) (s : Workspace α) (a : Nat → Array α → α) (rs : List (Operand α)) :
    Prop where
  length_lt : rs.length < 5
  above : ∀ j < 5, rs.length < j → E.eq (a j #[]) E.zero = true
  leading : rs.length ≠ 0 → E.eq (a rs.length #[]) E.zero = false
  quotient : ∀ (i : Nat) (x : Operand α), rs[i]? = some x →
    x.Computes E.calculus s fun xs => E.div (a i xs) (E.add (a rs.length xs) E.guard)

theorem Reduces.length_eq {a : Nat → Array α → α} {rs : List (Operand α)} (h : Reduces E s a rs) {d : Nat} (hd : d < 5)
    (habove : ∀ j < 5, d < j → E.eq (a j #[]) E.zero = true)
    (hleading : d ≠ 0 → E.eq (a d #[]) E.zero = false) : rs.length = d := by
  rcases lt_trichotomy rs.length d with hlt | heq | hgt
  · have hzero := h.above d hd hlt
    rw [hleading (Nat.ne_of_gt (Nat.zero_lt_of_lt hlt))] at hzero
    cases hzero
  · exact heq
  · have hzero := habove rs.length h.length_lt hgt
    rw [h.leading (Nat.ne_of_gt (Nat.zero_lt_of_lt hgt))] at hzero
    cases hzero

theorem of_amounts_monic (hs : s.Ready) {d : Nat} (hd : d < 5) {active : Nat} {rs : List (Operand α)}
    (h : List.Forall₂ (Term.Amounts E.rules active s) (monic (coefficients numeral p.terms q.terms) d) rs) :
    rs.length = d ∧ ∀ (i : Nat) (x : Operand α), rs[i]? = some x → x.Computes E.calculus s fun xs =>
      E.div (coefficientAt E numeral p q i xs) (E.add (coefficientAt E numeral p q d xs) E.guard) := by
  obtain ⟨lead, hlead⟩ : ∃ lead, (coefficients numeral p.terms q.terms)[d]? = some lead :=
    ⟨_, List.getElem?_eq_getElem hd⟩
  have hmonic : monic (coefficients numeral p.terms q.terms) d =
      ((coefficients numeral p.terms q.terms).take d).map fun c => Term.div c lead := by
    rw [monic, hlead]
  rw [hmonic] at h
  refine ⟨?_, fun i x hx => ?_⟩
  · rw [← h.length_eq, List.length_map, List.length_take]
    exact min_eq_left hd.le
  · obtain ⟨e, he, hamount⟩ := exists_getElem?_of_forall₂ h hx
    rw [List.getElem?_map, Option.map_eq_some_iff] at he
    obtain ⟨c, hc, rfl⟩ := he
    rw [List.getElem?_take] at hc
    split at hc
    · rw [coefficientAt_eq hlead, coefficientAt_eq hc]
      have hop : (Term.div c lead).IsOperator := trivial
      exact hamount.computes (C := E.calculus) hop hs
    · cases hc

/-- A polynomial is built from coefficients of its own, which have the same values. -/
theorem reduces_of_buildPolynomial (hw : w.Ready) (hv : v.Ready) (hwv : w.Grows v) {rs : List (Operand α)}
    (hrs : (buildPolynomial numeral Workspace.Item.find E.calculus p.terms q.terms).run v = (.ok rs, s)) :
    Reduces E s (coefficientAt E numeral p q) rs := by
  obtain ⟨cs, v₁, hcs, hrest⟩ := Build.of_run_bind_ok hrs
  obtain ⟨alphas, v₂, halphas, hbuild⟩ := Build.of_run_bind_ok hrest
  obtain ⟨-, rfl, -, hv₂, hgrows⟩ := of_numbersOf_coefficients hw hv hwv hcs halphas
  obtain ⟨hs, -, -, hamounts⟩ := (Term.safe_buildAll_amounts E.rules hw hv₂ hgrows _).of_run hbuild
  rw [List.map_map] at hamounts
  obtain ⟨habove, hleading⟩ := degree_spec
    ((List.range 5).map ((fun x => !E.eq x E.zero) ∘ fun i => coefficientAt E numeral p q i #[]))
  have hlt := degree_lt
    ((List.range 5).map ((fun x => !E.eq x E.zero) ∘ fun i => coefficientAt E numeral p q i #[])) (by simp)
  rw [List.length_map, List.length_range] at hlt
  obtain ⟨hlength, hquotient⟩ := of_amounts_monic hs hlt hamounts
  rw [← hlength] at habove hleading hlt hquotient
  refine ⟨hlt, fun j hj hjd => ?_, fun hne => ?_, hquotient⟩
  · have hfalse := habove j hjd
    rw [getElem?_range_map _ hj] at hfalse
    simpa using hfalse
  · have htrue := hleading.resolve_left hne
    rw [getElem?_range_map _ hlt] at htrue
    simpa using htrue

theorem exists_buildPolynomial (E : Elementary α) (numeral : Nat → α) (hw : w.Ready) (hv : v.Ready)
    (hwv : w.Grows v) (hp : p.terms.Over Workspace.Item.Active) (hq : q.terms.Over Workspace.Item.Active)
    (hlimit : (v.tape w.active).numInputs < Program.lengthLimit) : ∃ rs s,
      (buildPolynomial numeral Workspace.Item.find E.calculus p.terms q.terms).run v = (.ok rs, s) := by
  obtain ⟨cs, u, alphas, log, hcs, halphas, hu, hvu, -⟩ :=
    exists_numbersOf_coefficients E numeral hw hv hwv hp hq hlimit
  obtain ⟨-, -, -, hs, hws⟩ := of_numbersOf_coefficients hw hv hwv hcs halphas
  have hmonic := over_monic (over_coefficients numeral hp hq) (degree (alphas.map fun x => !E.eq x E.zero))
  obtain ⟨rs, s, hrs, -⟩ :=
    ((Term.safe_buildAll_over E.rules hw hs hws hmonic).weaken Workspace.not_misplaced).exists_run
  refine ⟨rs, s, ?_⟩
  unfold buildPolynomial
  exact (Build.run_bind_ok hcs).trans ((Build.run_bind_ok halphas).trans hrs)

/-- On the active tape two ellipses have a polynomial, unless the vector is too long. Whenever they have
one, its length is the degree of the coefficients at the samples: those above are zero there, the leading one
is not unless the degree is zero, and the handles compute the quotients of those below by the leading one. In
exact arithmetic the polynomial of the coefficients is had back where the denominator is not zero. -/
theorem polynomial_reduces_degree (E : Elementary α) (numeral : Nat → α) (hw : w.Ready)
    (p q : Ellipse w.Item) :
    (p.terms.Over Workspace.Item.Active → q.terms.Over Workspace.Item.Active →
      (w.tape w.active).numInputs < Program.lengthLimit → ∃ cs v alphas u rs s,
        (buildCoefficients numeral Workspace.Item.find E.rules p.terms q.terms).run w = (.ok cs, v) ∧
        (numbersOf E.calculus cs).run v = (.ok alphas, u) ∧
        (buildPolynomial numeral Workspace.Item.find E.calculus p.terms q.terms).run u = (.ok rs, s)) ∧
    ∀ (cs rs : List (Operand α)) (v u s : Workspace α) (alphas : List α),
      (buildCoefficients numeral Workspace.Item.find E.rules p.terms q.terms).run w = (.ok cs, v) →
      (numbersOf E.calculus cs).run v = (.ok alphas, u) →
      (buildPolynomial numeral Workspace.Item.find E.calculus p.terms q.terms).run u = (.ok rs, s) →
      ∃ a : Nat → Array α → α, cs.length = 5 ∧
        (∀ (i : Nat) (c : Operand α), cs[i]? = some c → c.Computes E.calculus v (a i)) ∧
        alphas = (List.range 5).map (fun i => a i #[]) ∧ Reduces E s a rs ∧
        ∀ [Field α], E.adjoints.Exact → (∀ x y, E.div x y = x / y) →
          a rs.length #[] + E.guard ≠ 0 → ∀ t,
            (a rs.length #[] + E.guard) * (∑ i ∈ Finset.range rs.length,
              E.div (a i #[]) (E.add (a rs.length #[]) E.guard) * t ^ i) +
                a rs.length #[] * t ^ rs.length = ∑ i ∈ Finset.range 5, a i #[] * t ^ i := by
  refine ⟨fun hp hq hlimit => ?_, fun cs rs v u s alphas hcs halphas hrs => ?_⟩
  · obtain ⟨cs, v, alphas, log, hcs, halphas, hv, hwv, hinput⟩ :=
      exists_numbersOf_coefficients E numeral hw hw (.refl w) hp hq hlimit
    obtain ⟨-, -, -, hu, hwu⟩ := of_numbersOf_coefficients hw hw (.refl w) hcs halphas
    rw [← hwv.numInputs_eq hw hv hinput] at hlimit
    obtain ⟨rs, s, hrs⟩ := exists_buildPolynomial E numeral hw hu hwu hp hq hlimit
    exact ⟨cs, v, alphas, _, rs, s, hcs, halphas, hrs⟩
  · obtain ⟨hamounts, halphas, hv, hu, hwu⟩ := of_numbersOf_coefficients hw hw (.refl w) hcs halphas
    have hreduces := reduces_of_buildPolynomial hw hu hwu hrs
    refine ⟨coefficientAt E numeral p q, hamounts.length_eq.symm, fun i c hc => ?_, halphas, hreduces, ?_⟩
    · obtain ⟨e, he, hamount⟩ := exists_getElem?_of_forall₂ hamounts hc
      rw [coefficientAt_eq he]
      exact hamount.computes (isOperator_coefficients _ _ _ e (List.mem_of_getElem? he)) hv
    · intro _ hE hdiv hne t
      have hzero : ∀ j < 5, rs.length < j → coefficientAt E numeral p q j #[] = 0 := fun j hj hjd =>
        hE.eq_zero _ (hreduces.above j hj hjd)
      have hadd : ∀ x y, E.add x y = x + y := hE.add
      rw [← sum_quotients hreduces.length_lt hzero hne]
      simp only [hdiv, hadd]

end

/-- Two unit circles, the second of which has its centre at an input: the polynomial is linear. -/
theorem polynomial_reduces_degree_unitCircles : ∃ (w v u s : Workspace ℚ) (x : w.Item)
    (cs rs : List (Operand ℚ)) (alphas : List ℚ), w.Ready ∧ x.place = some w.active ∧
      let number := Workspace.Item.number w
      let p : Ellipse w.Item := ⟨number 1, number 1, number 1, number 0, number 0⟩
      let q : Ellipse w.Item := ⟨number 1, number 1, number 1, x, number 0⟩
      (buildCoefficients Nat.cast Workspace.Item.find Elementary.rationals.rules p.terms q.terms).run w =
        (.ok cs, v) ∧
      (numbersOf Elementary.rationals.calculus cs).run v = (.ok alphas, u) ∧
      (buildPolynomial Nat.cast Workspace.Item.find Elementary.rationals.calculus p.terms q.terms).run u =
        (.ok rs, s) ∧
      alphas = [9, -18, 0, 0, 0] ∧ rs.length = 1 ∧ ∃ a : Nat → Array ℚ → ℚ,
        (∀ (i : Nat) (c : Operand ℚ), cs[i]? = some c → c.Computes Elementary.rationals.calculus v (a i)) ∧
        Reduces Elementary.rationals s a rs ∧ ∀ t : ℚ,
          -18 * (∑ i ∈ Finset.range rs.length, a i #[] / -18 * t ^ i) + -18 * t ^ rs.length = 9 - 18 * t := by
  obtain ⟨w, x, hw, hplace, hinputs, hx, -⟩ := Workspace.Item.exists_input (3 : ℚ)
  let number := Workspace.Item.number w
  let p : Ellipse w.Item := ⟨number 1, number 1, number 1, number 0, number 0⟩
  let q : Ellipse w.Item := ⟨number 1, number 1, number 1, x, number 0⟩
  have hnumber : ∀ a, (number a).Active := fun a => .inl rfl
  have hinput : x.Active := .inr hplace
  have hp : p.terms.Over Workspace.Item.Active := Ellipse.over_terms (by simp [p, hnumber])
  have hq : q.terms.Over Workspace.Item.Active := Ellipse.over_terms (by simp [q, hnumber, hinput])
  obtain ⟨hexists, hreduces⟩ := polynomial_reduces_degree Elementary.rationals Nat.cast hw p q
  have hlimit : (w.tape w.active).numInputs < Program.lengthLimit := by
    rw [hinputs]
    decide
  obtain ⟨cs, v, alphas, u, rs, s, hcs, halphas, hrs⟩ := hexists hp hq hlimit
  obtain ⟨a, -, hcomputes, hvalues, hdegree, hpolynomial⟩ := hreduces cs rs v u s alphas hcs halphas hrs
  obtain ⟨-, hcoefficients, -⟩ := of_numbersOf_coefficients hw hw (.refl w) hcs halphas
  have hnumbers : alphas = [9, -18, 0, 0, 0] := by
    rw [hcoefficients, ← map_value_coefficients]
    simp only [coefficients, alpha0, alpha1, alpha2, alpha3, alpha4, quadraticC, quadraticX, quadraticY,
      scale, num, Ellipse.terms, Ellipse.map, p, q, List.map]
    norm_num [number, hx, Elementary.ofField]
  have hzero : ∀ b : ℚ, Elementary.rationals.eq b Elementary.rationals.zero = decide (b = 0) := fun _ => rfl
  rw [hnumbers] at hvalues
  simp only [List.range_succ, List.range_zero, List.nil_append, List.cons_append, List.map_cons,
    List.map_nil, List.cons.injEq, and_true] at hvalues
  obtain ⟨h0, h1, h2, h3, h4⟩ := hvalues
  have hlength : rs.length = 1 := by
    refine hdegree.length_eq (by decide) (fun j hj hlt => ?_) fun _ => ?_
    · rw [hzero]
      interval_cases j
      · exact decide_eq_true h2.symm
      · exact decide_eq_true h3.symm
      · exact decide_eq_true h4.symm
    · rw [hzero, ← h1]
      decide
  refine ⟨w, v, u, s, x, cs, rs, alphas, hw, hplace, hcs, halphas, hrs, hnumbers, hlength, a, hcomputes,
    hdegree, fun t => ?_⟩
  have hleading : a rs.length #[] = -18 := by rw [hlength, h1]
  have hguard : Elementary.rationals.guard = 0 := rfl
  have hguarded : ∀ y, Elementary.rationals.add y 0 = y := add_zero
  have hdiv : ∀ y z, Elementary.rationals.div y z = y / z := fun _ _ => rfl
  have hsum : ∑ i ∈ Finset.range 5, a i #[] * t ^ i = 9 - 18 * t := by
    simp only [Finset.sum_range_succ, Finset.sum_range_zero, ← h0, ← h1, ← h2, ← h3, ← h4]
    ring
  have hidentity := hpolynomial (Elementary.exact_ofField default) hdiv
    (by rw [hleading, hguard]; norm_num) t
  simpa only [hsum, hguard, hguarded, add_zero, hdiv, hleading] using hidentity

end ScalarGraph.Pencil
