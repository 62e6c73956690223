import Mathlib
import ScalarGraph.Rules

/-! # Rules over the reals

Read over the reals, a local partial is the derivative of the rule beside it. This holds wherever
the rule can be differentiated at all: where it is differentiable and defined in a neighborhood. For every
unary operator these are the points of an open set that is written down, and for the others a
half-plane for powers and a slit plane for angles.
-/
namespace ScalarGraph
open Set Filter Topology

namespace Elementary

noncomputable def cubeRoot (x : ℝ) : ℝ := SignType.sign x * |x| ^ (1 / 3 : ℝ)

noncomputable def integerPart (x : ℝ) : ℝ := if 0 ≤ x then (⌊x⌋ : ℝ) else (⌈x⌉ : ℝ)

/-- The operations as functions on the reals. There are no infinities or NaN, and a function
has no meaning outside its domain. -/
noncomputable def real : Elementary ℝ where
  zero := 0
  one := 1
  two := 2
  three := 3
  half := 1 / 2
  guard := 1e-10
  lnTwo := Real.log 2
  lnTen := Real.log 10
  top := 0
  bottom := 0
  neg := Neg.neg
  add := (· + ·)
  sub := (· - ·)
  mul := (· * ·)
  div := (· / ·)
  pow := (· ^ ·)
  atan2 := fun a b => Complex.arg ⟨b, a⟩
  max := Max.max
  min := Min.min
  abs := fun x => |x|
  sign := fun x => SignType.sign x
  floor := fun x => ⌊x⌋
  ceil := fun x => ⌈x⌉
  trunc := integerPart
  sqrt := Real.sqrt
  cbrt := cubeRoot
  exp := Real.exp
  expm1 := fun x => Real.exp x - 1
  ln := Real.log
  log2 := Real.logb 2
  log10 := Real.logb 10
  log1p := fun x => Real.log (1 + x)
  sin := Real.sin
  cos := Real.cos
  tan := Real.tan
  asin := Real.arcsin
  acos := Real.arccos
  atan := Real.arctan
  sinh := Real.sinh
  cosh := Real.cosh
  tanh := Real.tanh
  asinh := Real.arsinh
  acosh := Real.arcosh
  atanh := Real.artanh
  lt := fun a b => decide (a < b)
  le := fun a b => decide (a ≤ b)
  eq := fun a b => decide (a = b)
  isNaN := fun _ => false
  isFinite := fun _ => true

end Elementary

/-- Where the rule of an operator is defined. -/
def UnaryOp.domain : UnaryOp → Set ℝ
  | .sqrt => Ici 0
  | .inverse => {x | x + Elementary.real.guard ≠ 0}
  | .acos | .asin => Icc (-1) 1
  | .acosh => Ici 1
  | .atanh => Ioo (-1) 1
  | .ln | .log2 | .log10 => Ioi 0
  | .log1p => Ioi (-1)
  | .tan => {x | Real.cos x ≠ 0}
  | _ => univ

/-- Where the rule of an operator has a derivative. -/
def UnaryOp.regular : UnaryOp → Set ℝ
  | .sqrt | .ln | .log2 | .log10 => Ioi 0
  | .inverse => {x | x + Elementary.real.guard ≠ 0}
  | .acos | .asin | .atanh => Ioo (-1) 1
  | .acosh => Ioi 1
  | .log1p => Ioi (-1)
  | .tan => {x | Real.cos x ≠ 0}
  | .abs | .cbrt | .sign => {x | x ≠ 0}
  | .ceil | .floor => {x | x ∉ range ((↑) : ℤ → ℝ)}
  | .round => {x | x + 1 / 2 ∉ range ((↑) : ℤ → ℝ)}
  | .trunc => {x | x ∉ ((↑) : ℤ → ℝ) '' {n | n ≠ 0}}
  | _ => univ

theorem UnaryOp.isOpen_regular (o : UnaryOp) : IsOpen o.regular := by
  have hint : IsOpen (range ((↑) : ℤ → ℝ))ᶜ := Int.isClosedEmbedding_coe_real.isClosed_range.isOpen_compl
  cases o with
  | sqrt | ln | log2 | log10 | acosh | log1p => exact isOpen_Ioi
  | acos | asin | atanh => exact isOpen_Ioo
  | inverse => exact isOpen_ne_fun (by fun_prop) continuous_const
  | tan => exact isOpen_ne_fun Real.continuous_cos continuous_const
  | abs | cbrt | sign => exact isOpen_ne
  | ceil | floor => exact hint
  | round => exact hint.preimage (by fun_prop : Continuous fun x : ℝ => x + 1 / 2)
  | trunc => exact (Int.isClosedEmbedding_coe_real.isClosedMap _ (isClosed_discrete _)).isOpen_compl
  | _ => exact isOpen_univ

theorem UnaryOp.regular_subset (o : UnaryOp) : o.regular ⊆ o.domain := by
  cases o with
  | sqrt => exact Ioi_subset_Ici_self
  | acos | asin => exact Ioo_subset_Icc_self
  | acosh => exact Ioi_subset_Ici_self
  | inverse | atanh | ln | log2 | log10 | log1p | tan => exact subset_rfl
  | _ => exact subset_univ _

namespace Elementary

theorem hasDerivAt_of_eventually_eq {f : ℝ → ℝ} {x : ℝ} (h : ∀ᶠ y in 𝓝 x, f y = f x) :
    HasDerivAt f 0 x :=
  (hasDerivAt_const x (f x)).congr_of_eventuallyEq h

theorem not_differentiableAt_of_jump {f : ℝ → ℝ} {x : ℝ} (s : Set ℝ) [(𝓝[s] x).NeBot]
    (h : ∀ y ∈ s, 1 ≤ |f y - f x|) : ¬ DifferentiableAt ℝ f x := by
  intro hf
  have hnear : ∀ᶠ y in 𝓝[s] x, |f y - f x| < 1 :=
    hf.continuousAt.continuousWithinAt (Metric.ball_mem_nhds (f x) one_pos)
  obtain ⟨y, hy, hys⟩ := (hnear.and self_mem_nhdsWithin).exists
  exact (h y hys).not_gt hy

theorem eventually_floor_eq {x : ℝ} (hx : x ∉ range ((↑) : ℤ → ℝ)) : ∀ᶠ y in 𝓝 x, ⌊y⌋ = ⌊x⌋ := by
  have hlt : (⌊x⌋ : ℝ) < x := lt_of_le_of_ne (Int.floor_le x) fun h => hx ⟨⌊x⌋, h⟩
  filter_upwards [Ioo_mem_nhds hlt (Int.lt_floor_add_one x)] with y hy
  exact Int.floor_eq_iff.mpr ⟨hy.1.le, hy.2⟩

theorem eventually_ceil_eq {x : ℝ} (hx : x ∉ range ((↑) : ℤ → ℝ)) : ∀ᶠ y in 𝓝 x, ⌈y⌉ = ⌈x⌉ := by
  have hlt : x < (⌈x⌉ : ℝ) := lt_of_le_of_ne (Int.le_ceil x) fun h => hx ⟨⌈x⌉, h.symm⟩
  filter_upwards [Ioo_mem_nhds (sub_lt_iff_lt_add.mpr (Int.ceil_lt_add_one x)) hlt] with y hy
  exact Int.ceil_eq_iff.mpr ⟨hy.1, hy.2.le⟩

theorem eventually_sign_eq {x : ℝ} (hx : x ≠ 0) : ∀ᶠ y in 𝓝 x, SignType.sign y = SignType.sign x := by
  have hcontinuous : Tendsto SignType.sign (𝓝 x) (𝓝 (SignType.sign x)) := continuousAt_sign_of_ne_zero hx
  rwa [nhds_discrete SignType, tendsto_pure] at hcontinuous

theorem eventually_integerPart_eq {x : ℝ} (hx : x ∉ ((↑) : ℤ → ℝ) '' {n | n ≠ 0}) :
    ∀ᶠ y in 𝓝 x, integerPart y = integerPart x := by
  have hrange : x ≠ 0 → x ∉ range ((↑) : ℤ → ℝ) := by
    rintro h0 ⟨n, rfl⟩
    exact hx ⟨n, fun hn => h0 (by simp [hn]), rfl⟩
  rcases lt_trichotomy x 0 with h | rfl | h
  · filter_upwards [eventually_ceil_eq (hrange h.ne), Iio_mem_nhds h] with y hy hy0
    rw [integerPart, integerPart, if_neg (not_le.mpr hy0), if_neg (not_le.mpr h), hy]
  · -- around zero the integer part is zero from both sides
    filter_upwards [Ioo_mem_nhds neg_one_lt_zero one_pos] with y hy
    unfold integerPart
    split
    · next h => simp [Int.floor_eq_zero_iff.mpr ⟨h, hy.2⟩]
    · next h => simp [Int.ceil_eq_zero_iff.mpr ⟨hy.1, (not_le.mp h).le⟩]
  · filter_upwards [eventually_floor_eq (hrange h.ne'), Ioi_mem_nhds h] with y hy hy0
    rw [integerPart, integerPart, if_pos (le_of_lt hy0), if_pos h.le, hy]

theorem floor_jump {n : ℤ} {y : ℝ} (hy : y < n) : 1 ≤ |(⌊y⌋ : ℝ) - n| := by
  have hle : ⌊y⌋ + 1 ≤ n := Int.floor_lt.mpr hy
  have hle : (⌊y⌋ : ℝ) + 1 ≤ n := mod_cast hle
  rw [abs_sub_comm]
  exact le_abs.mpr (.inl (by linarith))

theorem ceil_jump {n : ℤ} {y : ℝ} (hy : (n : ℝ) < y) : 1 ≤ |(⌈y⌉ : ℝ) - n| := by
  have hle : n + 1 ≤ ⌈y⌉ := Int.lt_ceil.mpr hy
  have hle : (n : ℝ) + 1 ≤ ⌈y⌉ := mod_cast hle
  exact le_abs.mpr (.inl (by linarith))

theorem integerPart_intCast (n : ℤ) : integerPart n = n := by
  unfold integerPart
  split <;> simp

/-- The integer part jumps at every integer but zero, seen from the side of zero. -/
theorem not_differentiableAt_integerPart {n : ℤ} (hn : n ≠ 0) : ¬ DifferentiableAt ℝ integerPart n := by
  rcases lt_or_gt_of_ne hn with h | h
  · have hle : (n : ℝ) + 1 ≤ 0 := mod_cast h
    refine not_differentiableAt_of_jump (Ioi (n : ℝ)) fun y hy => ?_
    rw [integerPart_intCast, integerPart]
    split
    · next h0 =>
      have hfloor : (0 : ℝ) ≤ ⌊y⌋ := mod_cast Int.floor_nonneg.mpr h0
      exact le_abs.mpr (.inl (by linarith))
    · exact ceil_jump hy
  · have hle : (1 : ℝ) ≤ n := mod_cast h
    refine not_differentiableAt_of_jump (Iio (n : ℝ)) fun y hy => ?_
    rw [integerPart_intCast, integerPart]
    split
    · exact floor_jump hy
    · next h0 =>
      have hceil : (⌈y⌉ : ℝ) ≤ 0 := mod_cast Int.ceil_le.mpr (by simpa using (not_le.mp h0).le)
      exact le_abs.mpr (.inr (by linarith))

theorem cubeRoot_cube (x : ℝ) : cubeRoot x * cubeRoot x * cubeRoot x = x := by
  have habs : |x| ^ (1 / 3 : ℝ) * |x| ^ (1 / 3 : ℝ) * |x| ^ (1 / 3 : ℝ) = |x| := by
    rw [← pow_three', ← Real.rpow_natCast, ← Real.rpow_mul (abs_nonneg x)]
    norm_num
  unfold cubeRoot
  rcases lt_trichotomy x 0 with h | rfl | h
  · rw [sign_neg h]
    rw [abs_of_neg h] at habs ⊢
    simp only [SignType.coe_neg_one]
    linarith
  · simp
  · rw [sign_pos h]
    rw [abs_of_pos h] at habs ⊢
    simp only [SignType.coe_one, one_mul, habs]

theorem hasDerivAt_cubeRoot {x : ℝ} (hx : x ≠ 0) :
    HasDerivAt cubeRoot (1 / (3 * cubeRoot x * cubeRoot x)) x := by
  have hne : cubeRoot x ≠ 0 := fun h => hx (by rw [← cubeRoot_cube x, h, mul_zero])
  have hsign : ContinuousAt (fun y : ℝ => ((SignType.sign y : SignType) : ℝ)) x :=
    (hasDerivAt_of_eventually_eq ((eventually_sign_eq hx).mono fun y hy => by simp only [hy])).continuousAt
  have hcontinuous : ContinuousAt cubeRoot x :=
    hsign.mul (continuous_abs.continuousAt.rpow_const (.inr (by norm_num)))
  have hcube : HasDerivAt (fun y : ℝ => y * y * y) (3 * cubeRoot x * cubeRoot x) (cubeRoot x) :=
    (((hasDerivAt_id _).mul (hasDerivAt_id _)).mul (hasDerivAt_id _)).congr_deriv (by simp; ring)
  rw [one_div]
  exact hcube.of_local_left_inverse hcontinuous (by simp [hne]) (.of_forall cubeRoot_cube)

theorem not_differentiableAt_cubeRoot : ¬ DifferentiableAt ℝ cubeRoot 0 := by
  intro h
  have hzero : cubeRoot 0 = 0 := by simp [cubeRoot]
  have hcube : HasDerivAt (fun y => cubeRoot y * cubeRoot y * cubeRoot y) 0 0 :=
    ((h.hasDerivAt.mul h.hasDerivAt).mul h.hasDerivAt).congr_deriv (by simp [hzero])
  simp only [cubeRoot_cube] at hcube
  exact zero_ne_one (hcube.unique (hasDerivAt_id 0))

theorem hasDerivAt_tanh (x : ℝ) : HasDerivAt Real.tanh (1 - Real.tanh x * Real.tanh x) x := by
  have hcosh : Real.cosh x ≠ 0 := (Real.cosh_pos x).ne'
  rw [show Real.tanh = fun y => Real.sinh y / Real.cosh y from funext Real.tanh_eq_sinh_div_cosh]
  refine ((Real.hasDerivAt_sinh x).div (Real.hasDerivAt_cosh x) hcosh).congr_deriv ?_
  field_simp

theorem hasDerivAt_artanh {x : ℝ} (hx : x ∈ Ioo (-1) 1) : HasDerivAt Real.artanh (1 / (1 - x * x)) x := by
  have hplus : 1 + x ≠ 0 := by linarith [hx.1]
  have hminus : 1 - x ≠ 0 := by linarith [hx.2]
  have hquotient : HasDerivAt (fun y : ℝ => (1 + y) / (1 - y)) (2 / (1 - x) ^ 2) x :=
    (((hasDerivAt_id x).const_add 1).div ((hasDerivAt_id x).const_sub 1) hminus).congr_deriv
      (by simp; ring)
  have hlog := (hquotient.log (div_ne_zero hplus hminus)).const_mul (1 / 2)
  refine (hlog.congr_deriv ?_).congr_of_eventuallyEq ?_
  · rw [show 1 - x * x = (1 - x) * (1 + x) by ring]
    field_simp
  · filter_upwards [Ioo_mem_nhds hx.1 hx.2] with y hy
    exact Real.artanh_eq_half_log (Ioo_subset_Icc_self hy)

theorem hasDerivAt_logb {b x : ℝ} (hx : x ≠ 0) : HasDerivAt (Real.logb b) (1 / (x * Real.log b)) x := by
  refine ((Real.hasDerivAt_log hx).div_const (Real.log b)).congr_deriv ?_
  rw [inv_eq_one_div, div_div]

/-- The partial of a unary operator is its derivative. -/
theorem hasDerivAt_unaryValue {o : UnaryOp} {x : ℝ} (hx : x ∈ o.regular) :
    HasDerivAt (real.unaryValue o) (real.unaryPartial o x (real.unaryValue o x)) x := by
  cases o with
  | neg => exact (hasDerivAt_id x).neg
  | squared =>
    refine ((hasDerivAt_id x).mul (hasDerivAt_id x)).congr_deriv ?_
    simp only [unaryPartial, real, id]
    ring
  | sqrt =>
    refine (Real.hasDerivAt_sqrt (ne_of_gt hx)).congr_deriv ?_
    simp only [unaryPartial, unaryValue, real]
    rw [div_div]
  | inverse =>
    have hx : x + real.guard ≠ 0 := hx
    show HasDerivAt (fun x => 1 / (x + real.guard)) (-(1 / (x + real.guard) * (1 / (x + real.guard)))) x
    simp only [one_div]
    refine (((hasDerivAt_id x).add_const real.guard).inv hx).congr_deriv ?_
    simp only [id]
    field_simp
  | abs => exact hasDerivAt_abs hx
  | acos =>
    refine (Real.hasDerivAt_arccos (ne_of_gt hx.1) (ne_of_lt hx.2)).congr_deriv ?_
    simp only [unaryPartial, real, pow_two, neg_div]
  | acosh =>
    refine (Real.hasDerivAt_arcosh hx).congr_deriv ?_
    simp only [unaryPartial, real, pow_two, one_div]
  | asin =>
    refine (Real.hasDerivAt_arcsin (ne_of_gt hx.1) (ne_of_lt hx.2)).congr_deriv ?_
    simp only [unaryPartial, real, pow_two]
  | asinh =>
    refine (Real.hasDerivAt_arsinh x).congr_deriv ?_
    simp only [unaryPartial, real, pow_two, one_div, add_comm]
  | atan =>
    refine (Real.hasDerivAt_arctan x).congr_deriv ?_
    simp only [unaryPartial, real, pow_two]
  | atanh => exact hasDerivAt_artanh hx
  | cbrt => exact hasDerivAt_cubeRoot hx
  | cos => exact Real.hasDerivAt_cos x
  | cosh => exact Real.hasDerivAt_cosh x
  | exp => exact Real.hasDerivAt_exp x
  | expm1 => exact (Real.hasDerivAt_exp x).sub_const 1
  | ln => exact (Real.hasDerivAt_log (ne_of_gt hx)).congr_deriv (one_div x).symm
  | log2 => exact hasDerivAt_logb (ne_of_gt hx)
  | log10 => exact hasDerivAt_logb (ne_of_gt hx)
  | log1p =>
    have hx : 1 + x ≠ 0 := by linarith [mem_Ioi.mp hx]
    exact ((hasDerivAt_id x).const_add 1).log hx
  | sin => exact Real.hasDerivAt_sin x
  | sinh => exact Real.hasDerivAt_sinh x
  | tan => exact (Real.hasDerivAt_tan hx).congr_deriv (by rw [← Real.rpow_two]; rfl)
  | tanh => exact hasDerivAt_tanh x
  | ceil =>
    exact hasDerivAt_of_eventually_eq ((eventually_ceil_eq hx).mono fun y hy => congrArg Int.cast hy)
  | floor =>
    exact hasDerivAt_of_eventually_eq ((eventually_floor_eq hx).mono fun y hy => congrArg Int.cast hy)
  | round =>
    have hnear : ∀ᶠ y in 𝓝 x, ⌊y + 1 / 2⌋ = ⌊x + 1 / 2⌋ :=
      (continuous_add_const (1 / 2 : ℝ)).continuousAt.eventually (eventually_floor_eq hx)
    exact hasDerivAt_of_eventually_eq (hnear.mono fun y hy => congrArg Int.cast hy)
  | sign =>
    have hnear := eventually_sign_eq hx
    exact hasDerivAt_of_eventually_eq (hnear.mono fun y hy => congrArg SignType.cast hy)
  | trunc => exact hasDerivAt_of_eventually_eq (eventually_integerPart_eq hx)

/-- Where a unary operator is differentiable inside its domain, its partial is its derivative. -/
theorem mem_regular {o : UnaryOp} {x : ℝ} (hx : x ∈ interior o.domain)
    (hd : DifferentiableAt ℝ (real.unaryValue o) x) : x ∈ o.regular := by
  cases o with
  | sqrt | acosh => rwa [UnaryOp.domain, interior_Ici] at hx
  | acos | asin => rwa [UnaryOp.domain, interior_Icc] at hx
  | inverse | atanh | ln | log2 | log10 | log1p | tan => exact interior_subset hx
  | abs =>
    rintro rfl
    exact not_differentiableAt_abs_zero hd
  | cbrt =>
    rintro rfl
    exact not_differentiableAt_cubeRoot hd
  | sign =>
    rintro rfl
    refine not_differentiableAt_of_jump (Ioi 0) (fun y hy => ?_) hd
    simp [unaryValue, real, sign_pos (mem_Ioi.mp hy)]
  | ceil =>
    rintro ⟨n, rfl⟩
    refine not_differentiableAt_of_jump (Ioi (n : ℝ)) (fun y hy => ?_) hd
    simpa [unaryValue, real] using ceil_jump hy
  | floor =>
    rintro ⟨n, rfl⟩
    refine not_differentiableAt_of_jump (Iio (n : ℝ)) (fun y hy => ?_) hd
    simpa [unaryValue, real] using floor_jump hy
  | round =>
    rintro ⟨n, hn⟩
    refine not_differentiableAt_of_jump (Iio x) (fun y hy => ?_) hd
    have hlt : y + 1 / 2 < n := by linarith [mem_Iio.mp hy]
    simpa only [unaryValue, real, ← hn, Int.floor_intCast] using floor_jump hlt
  | trunc =>
    rintro ⟨n, hn, rfl⟩
    exact not_differentiableAt_integerPart hn hd
  | _ => trivial

theorem interior_differentiable (o : UnaryOp) :
    interior {x | x ∈ o.domain ∧ DifferentiableAt ℝ (real.unaryValue o) x} = o.regular := by
  refine Subset.antisymm (fun x hx => ?_) (interior_maximal ?_ o.isOpen_regular)
  · exact mem_regular (interior_mono (fun y hy => hy.1) hx) (interior_subset hx).2
  · exact fun x hx => ⟨o.regular_subset hx, (hasDerivAt_unaryValue hx).differentiableAt⟩

noncomputable def gradientForm (o : BinaryOp) (a b : ℝ) : ℝ × ℝ →L[ℝ] ℝ :=
  (real.binaryPartial o a b (real.binaryValue o a b)).1 • ContinuousLinearMap.fst ℝ ℝ ℝ +
    (real.binaryPartial o a b (real.binaryValue o a b)).2 • ContinuousLinearMap.snd ℝ ℝ ℝ

theorem hasFDerivAt_pow {a b : ℝ} (ha : 0 < a) :
    HasFDerivAt (fun p : ℝ × ℝ => real.binaryValue .pow p.1 p.2) (gradientForm .pow a b) (a, b) := by
  have h := (Real.hasStrictFDerivAt_rpow_of_pos (a, b) ha).hasFDerivAt
  have hform : gradientForm .pow a b = (b * a ^ (b - 1)) • ContinuousLinearMap.fst ℝ ℝ ℝ +
      (a ^ b * Real.log a) • ContinuousLinearMap.snd ℝ ℝ ℝ := by
    simp [gradientForm, binaryPartial, binaryValue, real, ha]
  rw [hform]
  exact h

noncomputable def complexOfPair : ℝ × ℝ →L[ℝ] ℂ :=
  (Complex.equivRealProdCLM.symm : ℝ × ℝ →L[ℝ] ℂ).comp
    ((ContinuousLinearMap.snd ℝ ℝ ℝ).prod (ContinuousLinearMap.fst ℝ ℝ ℝ))

theorem hasFDerivAt_atan2 {a b : ℝ} (h : ¬(a = 0 ∧ b ≤ 0)) :
    HasFDerivAt (fun p : ℝ × ℝ => real.binaryValue .atan2 p.1 p.2) (gradientForm .atan2 a b) (a, b) := by
  have hslit : (⟨b, a⟩ : ℂ) ∈ Complex.slitPlane := by
    rw [Complex.mem_slitPlane_iff]
    by_cases ha : a = 0
    · exact .inl (not_le.mp fun hb => h ⟨ha, hb⟩)
    · exact .inr ha
  have hlog := Complex.imCLM.hasFDerivAt.comp (a, b)
    ((Complex.hasStrictFDerivAt_log_real hslit).hasFDerivAt.comp (a, b) complexOfPair.hasFDerivAt)
  have hvalue : (fun p : ℝ × ℝ => real.binaryValue .atan2 p.1 p.2) =
      Complex.imCLM ∘ Complex.log ∘ complexOfPair := funext fun p => (Complex.log_im _).symm
  rw [hvalue]
  refine hlog.congr_fderiv (ContinuousLinearMap.ext fun p => ?_)
  have hnorm : Complex.normSq ⟨b, a⟩ = a * a + b * b := by rw [Complex.normSq_mk, add_comm]
  simp [gradientForm, complexOfPair, binaryPartial, real, Complex.inv_re, Complex.inv_im, hnorm]

/-- The partials are the derivatives of the rules. The points inside the domain of a unary operator
where it can be differentiated are its regular ones, and there its partial is the derivative. A power of
a positive base, and an angle off the half-line where it jumps, have their two partials as gradient. -/
theorem hasDerivAt_partials :
    (∀ o : UnaryOp, interior {x | x ∈ o.domain ∧ DifferentiableAt ℝ (real.unaryValue o) x} = o.regular ∧
      ∀ x ∈ interior {x | x ∈ o.domain ∧ DifferentiableAt ℝ (real.unaryValue o) x},
        HasDerivAt (real.unaryValue o) (real.unaryPartial o x (real.unaryValue o x)) x) ∧
    (∀ a b : ℝ, 0 < a →
      HasFDerivAt (fun p : ℝ × ℝ => real.binaryValue .pow p.1 p.2) (gradientForm .pow a b) (a, b)) ∧
    ∀ a b : ℝ, ¬(a = 0 ∧ b ≤ 0) →
      HasFDerivAt (fun p : ℝ × ℝ => real.binaryValue .atan2 p.1 p.2) (gradientForm .atan2 a b) (a, b) := by
  refine ⟨fun o => ⟨interior_differentiable o, fun x hx => ?_⟩, fun _ _ => hasFDerivAt_pow,
    fun _ _ => hasFDerivAt_atan2⟩
  rw [interior_differentiable] at hx
  exact hasDerivAt_unaryValue hx

theorem hasDerivAt_partials_sqrt_pow_atan2 :
    HasDerivAt (real.unaryValue .sqrt) (real.unaryPartial .sqrt 4 (real.unaryValue .sqrt 4)) 4 ∧
    HasFDerivAt (fun p : ℝ × ℝ => real.binaryValue .pow p.1 p.2) (gradientForm .pow 2 (-1)) (2, -1) ∧
    HasFDerivAt (fun p : ℝ × ℝ => real.binaryValue .atan2 p.1 p.2) (gradientForm .atan2 1 (-1)) (1, -1) := by
  obtain ⟨hunary, hpow, hatan2⟩ := hasDerivAt_partials
  obtain ⟨hregular, hsqrt⟩ := hunary .sqrt
  refine ⟨hsqrt 4 ?_, hpow 2 (-1) two_pos, hatan2 1 (-1) fun h => one_ne_zero h.1⟩
  rw [hregular]
  exact mem_Ioi.mpr four_pos

end Elementary
end ScalarGraph
