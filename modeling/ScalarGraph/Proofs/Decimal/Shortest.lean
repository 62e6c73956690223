import ScalarGraph.Decimal.Shortest
import ScalarGraph.Proofs.Binary64.Rounding

/-! # The fewest digits read back

The search for the digits of a number ends at a point of its interval: seventeen digits are enough.
-/
namespace ScalarGraph.Decimal
open Binary64

def Scaled.value (d : Scaled) : ℚ := d.digits * 10 ^ d.exponent

theorem Scaled.normal_spec (fuel : Nat) {d : Scaled} (h : 0 < d.digits) :
    (normal fuel d).value = d.value ∧ 0 < (normal fuel d).digits := by
  induction fuel generalizing d with
  | zero => exact ⟨rfl, h⟩
  | succ fuel ih =>
    unfold normal
    split
    · rename_i hten
      have hdigits : d.digits = d.digits / 10 * 10 := by omega
      have hpos' : 0 < d.digits / 10 := by omega
      obtain ⟨hvalue, hpos⟩ := @ih ⟨d.digits / 10, d.exponent + 1⟩ hpos'
      refine ⟨?_, hpos⟩
      rw [hvalue, value, value]
      conv_rhs => rw [hdigits]
      push_cast
      rw [zpow_add_one₀ (by norm_num)]
      ring
    · exact ⟨rfl, h⟩

section
variable {x : Float} {num den c : Nat}

theorem Interval.around_low (x : Float) :
    (Interval.around x).low = 4 * significand x - gap (significand x) (exponent x) := by
  unfold Interval.around gap
  have hnarrow : (Binary64.fraction x = 0 ∧ 1 < biasedExponent x) ↔
      (significand x = 2 ^ 52 ∧ -1074 < exponent x) := by
    unfold significand exponent hiddenBit
    split
    · rename_i h0
      simp only [h0]
      omega
    · omega
  simp only [hnarrow]

theorem Interval.nearest_of_holds (hx : 0 < significand x) (hden : 0 < den)
    (h : (Interval.around x).holds num den c = true) :
    Nearest (significand x) (exponent x) (c * num / den) := by
  have hden' : (0 : ℚ) < den := by exact_mod_cast hden
  have hgap := gap_pos (significand x) (exponent x)
  have hlow : ((Interval.around x).low : ℚ) = 4 * significand x - gap (significand x) (exponent x) := by
    rw [around_low, Nat.cast_sub (by omega)]
    push_cast
    rfl
  have hhigh : ((Interval.around x).high : ℚ) = 4 * significand x + 2 := by
    unfold around
    push_cast
    rfl
  unfold holds at h
  split at h
  · rename_i hclosed
    have heven : significand x % 2 = 0 := of_decide_eq_true hclosed
    rw [Bool.and_eq_true, decide_eq_true_eq, decide_eq_true_eq] at h
    constructor
    · rw [← hlow, le_div_iff₀ hden']
      exact_mod_cast h.1
    · rw [← hhigh, div_le_iff₀ hden']
      exact_mod_cast h.2
    · omega
  · rw [Bool.and_eq_true, decide_eq_true_eq, decide_eq_true_eq] at h
    have h1 : (4 * significand x - gap (significand x) (exponent x) : ℚ) < c * num / den := by
      rw [← hlow, lt_div_iff₀ hden']
      exact_mod_cast h.1
    have h2 : (c * num / den : ℚ) < 4 * significand x + 2 := by
      rw [← hhigh, div_lt_iff₀ hden']
      exact_mod_cast h.2
    exact ⟨h1.le, h2.le, fun _ => ⟨h1, h2⟩⟩

theorem Interval.holds_of_pick? {i : Interval} (h : i.pick? num den = some c) :
    i.holds num den c = true := by
  unfold pick? at h
  simp only [] at h
  split at h
  · cases h
  · rename_i h1 h2
    cases h
    exact h1
  · rename_i h1 h2
    cases h
    exact h2
  · rename_i h1 h2
    simp only [Option.some.injEq] at h
    obtain rfl | rfl : c = i.middle * den / num ∨ c = i.middle * den / num + 1 := by
      split at h
      · omega
      · split at h
        · omega
        · omega
    · exact h1
    · exact h2

/-- A grid that is no coarser than a quarter of the last place has a point in the interval. -/
theorem Interval.pick?_of_le (hx : 0 < significand x) (hnum : 0 < num) (hle : num ≤ den) :
    ((Interval.around x).pick? num den).isSome = true := by
  have hholds : (Interval.around x).holds num den ((Interval.around x).middle * den / num) = true := by
    have hbelow := Nat.div_mul_le_self ((Interval.around x).middle * den) num
    have habove := Nat.lt_div_mul_add (a := (Interval.around x).middle * den) hnum
    have hgap := gap_pos (significand x) (exponent x)
    have hlow : (Interval.around x).low + 1 ≤ (Interval.around x).middle := by
      rw [around_low]
      show _ ≤ 4 * significand x
      omega
    have hhigh : (Interval.around x).high = (Interval.around x).middle + 2 := rfl
    have hmul := Nat.mul_le_mul_right den hlow
    unfold holds
    rw [hhigh]
    split
    · rw [Bool.and_eq_true, decide_eq_true_eq, decide_eq_true_eq]
      constructor <;> linarith
    · rw [Bool.and_eq_true, decide_eq_true_eq, decide_eq_true_eq]
      constructor <;> linarith
  unfold pick?
  simp only [hholds]
  cases (Interval.around x).holds num den ((Interval.around x).middle * den / num + 1) <;> rfl

end

/-- The grid of multiples of `10 ^ e` in the given units. -/
def grid (unit : Nat × Nat) (e : Int) : Nat × Nat := ((powTen e).1 * unit.2, (powTen e).2 * unit.1)

theorem quotient_grid (unit : Nat × Nat) (e : Int) : quotient (grid unit e) = 10 ^ e / quotient unit := by
  rw [← quotient_powTen]
  unfold grid quotient
  push_cast
  rw [div_div_div_eq]

/-- The search ends at a grid with a point in the interval where there is one in its reach. -/
theorem Interval.search_eq (i : Interval) (bound : Int) (unit : Nat × Nat) (fuel : Nat) (e : Int)
    (h : ∃ k < fuel, (i.pick? (grid unit (e - k)).1 (grid unit (e - k)).2).isSome = true) :
    ∃ c, ∃ k < fuel, i.pick? (grid unit (e - k)).1 (grid unit (e - k)).2 = some c ∧
      i.search bound unit fuel e = Scaled.normal 20 ⟨c, e - k⟩ := by
  induction fuel generalizing e with
  | zero =>
    obtain ⟨k, hk, -⟩ := h
    exact absurd hk (Nat.not_lt_zero k)
  | succ fuel ih =>
    cases hpick : i.pick? (grid unit e).1 (grid unit e).2 with
    | some c =>
      refine ⟨c, 0, Nat.succ_pos fuel, ?_, ?_⟩
      · rw [Nat.cast_zero, Int.sub_zero, hpick]
      · have hfound : i.pick? ((powTen e).1 * unit.2) ((powTen e).2 * unit.1) = some c := hpick
        rw [Interval.search, Nat.cast_zero, Int.sub_zero]
        simp only [hfound]
    | none =>
      have hshift (k : Nat) : e - (k + 1 : Nat) = e - 1 - k := by omega
      obtain ⟨k, hk, hsome⟩ := h
      cases k with
      | zero =>
        rw [Nat.cast_zero, Int.sub_zero, hpick] at hsome
        cases hsome
      | succ k =>
        rw [hshift] at hsome
        obtain ⟨c, k', hk', hc, hsearch⟩ := ih (e - 1) ⟨k, Nat.lt_of_succ_lt_succ hk, hsome⟩
        refine ⟨c, k' + 1, Nat.succ_lt_succ hk', ?_, ?_⟩
        · rw [hshift, hc]
        · have hnone : i.pick? ((powTen e).1 * unit.2) ((powTen e).2 * unit.1) = none := hpick
          rw [Interval.search, hshift]
          simp only [hnone, hsearch]

theorem boundFrom_spec {num den : Nat} (hden : 0 < den) (fuel : Nat) (e : Int) :
    boundFrom num den fuel e = e ∨ (10 : ℚ) ^ (boundFrom num den fuel e - 1) ≤ num / den := by
  induction fuel generalizing e with
  | zero => exact .inl rfl
  | succ fuel ih =>
    have hbelow := @mul_lt_mul_iff num den _ 1 hden (powTen_pos e).2
    rw [Nat.one_mul, quotient_powTen, Nat.cast_one, one_mul] at hbelow
    unfold boundFrom
    by_cases h : num * (powTen e).2 < den * (powTen e).1
    · rw [if_pos h]
      exact .inl rfl
    · rw [if_neg h]
      right
      rcases ih (e + 1) with heq | hbound
      · rw [heq, add_sub_cancel_right]
        exact not_lt.mp fun hlt => h (hbelow.mpr hlt)
      · exact hbound

theorem ten_pow_le_two_pow {s k : Int} (h : 100000 * s ≤ 30103 * k) (hlow : -3000 ≤ k) (hhigh : k ≤ 3000) :
    (10 : ℚ) ^ s ≤ 2 ^ (k + 1) := by
  by_cases hs : 0 ≤ s
  · obtain ⟨a, rfl⟩ := Int.eq_ofNat_of_zero_le hs
    obtain ⟨b, rfl⟩ := Int.eq_ofNat_of_zero_le (show 0 ≤ k by omega)
    have hpow : (10 ^ a) ^ 59 ≤ (2 ^ (b + 1)) ^ 59 :=
      calc (10 ^ a) ^ 59 = (10 ^ 59) ^ a := by rw [← pow_mul, ← pow_mul, Nat.mul_comm]
        _ ≤ (2 ^ 196) ^ a := Nat.pow_le_pow_left (by decide) _
        _ = 2 ^ (196 * a) := by rw [← pow_mul]
        _ ≤ 2 ^ ((b + 1) * 59) := Nat.pow_le_pow_right (by decide) (by omega)
        _ = (2 ^ (b + 1)) ^ 59 := by rw [← pow_mul]
    have hle := (Nat.pow_le_pow_iff_left (by decide)).mp hpow
    rw [zpow_natCast, ← Nat.cast_succ, zpow_natCast]
    exact_mod_cast hle
  · obtain ⟨a, rfl⟩ : ∃ a : Nat, s = -a := ⟨(-s).toNat, by omega⟩
    by_cases hk : -1 ≤ k
    · calc (10 : ℚ) ^ (-(a : Int)) ≤ 10 ^ (0 : Int) := zpow_le_zpow_right₀ (by norm_num) (by omega)
        _ = 2 ^ (0 : Int) := by rw [zpow_zero, zpow_zero]
        _ ≤ 2 ^ (k + 1) := zpow_le_zpow_right₀ one_le_two (by omega)
    · obtain ⟨b, rfl⟩ : ∃ b : Nat, k = -(b : Int) - 1 := ⟨(-k - 1).toNat, by omega⟩
      have hpow : (2 ^ b) ^ 93 ≤ (10 ^ a) ^ 93 :=
        calc (2 ^ b) ^ 93 = (2 ^ 93) ^ b := by rw [← pow_mul, ← pow_mul, Nat.mul_comm]
          _ ≤ (10 ^ 28) ^ b := Nat.pow_le_pow_left (by decide) _
          _ = 10 ^ (28 * b) := by rw [← pow_mul]
          _ ≤ 10 ^ (a * 93) := Nat.pow_le_pow_right (by decide) (by omega)
          _ = (10 ^ a) ^ 93 := by rw [← pow_mul]
      have hle : (2 : ℚ) ^ b ≤ 10 ^ a := by exact_mod_cast (Nat.pow_le_pow_iff_left (by decide)).mp hpow
      rw [sub_add_cancel, zpow_neg, zpow_neg, zpow_natCast, zpow_natCast]
      exact inv_anti₀ (by positivity) hle

theorem magnitude_spec {num den : Nat} (hnum : 0 < num) (hden : 0 < den)
    (hlow : (2 : ℚ) ^ (-1074 : Int) ≤ num / den) (hhigh : (num / den : ℚ) < 2 ^ (1024 : Int)) :
    (10 : ℚ) ^ (magnitude num den - 1) ≤ 2 * (num / den) := by
  obtain ⟨hbelow, habove⟩ := log2_bounds hnum hden
  have hk1 : -1074 < (num.log2 : Int) - den.log2 + 1 :=
    (zpow_lt_zpow_iff_right₀ one_lt_two).mp (lt_of_le_of_lt hlow habove)
  have hk2 : (num.log2 : Int) - den.log2 - 1 < 1024 :=
    (zpow_lt_zpow_iff_right₀ one_lt_two).mp (lt_of_le_of_lt hbelow hhigh)
  rcases @boundFrom_spec num den hden 4 (((num.log2 : Int) - den.log2 - 1) * 30103 / 100000) with
    heq | hbound
  · unfold magnitude
    rw [heq]
    calc (10 : ℚ) ^ (((num.log2 : Int) - den.log2 - 1) * 30103 / 100000 - 1)
        ≤ 10 ^ (((num.log2 : Int) - den.log2 - 1) * 30103 / 100000) :=
          zpow_le_zpow_right₀ (by norm_num) (by omega)
      _ ≤ 2 ^ ((num.log2 : Int) - den.log2 - 1 + 1) :=
          ten_pow_le_two_pow (by omega) (by omega) (by omega)
      _ = 2 * 2 ^ ((num.log2 : Int) - den.log2 - 1) := by
          rw [zpow_add_one₀ two_ne_zero, mul_comm]
      _ ≤ 2 * (num / den) := by gcongr
  · have hpos : (0 : ℚ) ≤ num / den := by positivity
    exact le_trans hbound (by linarith)

section
variable {x : Float}

theorem ratio_bounds (hx : 0 < significand x) (hc : Canonical (significand x) (exponent x)) :
    (2 : ℚ) ^ (-1074 : Int) ≤ (ratio x).1 / (ratio x).2 ∧
      ((ratio x).1 / (ratio x).2 : ℚ) < 2 ^ (53 : Int) * 2 ^ exponent x := by
  have hm : (1 : ℚ) ≤ significand x := by exact_mod_cast hx
  have hm' : (significand x : ℚ) < 2 ^ (53 : Int) := by
    rw [← Nat.cast_ofNat (R := Int), zpow_natCast]
    exact_mod_cast hc.lt
  rw [ratio_value]
  constructor
  · calc (2 : ℚ) ^ (-1074 : Int) ≤ 2 ^ exponent x := zpow_le_zpow_right₀ one_le_two hc.low
      _ = 1 * 2 ^ exponent x := (one_mul _).symm
      _ ≤ significand x * 2 ^ exponent x := by gcongr
  · gcongr

theorem ratio_pos (hx : 0 < significand x) : 0 < (ratio x).1 ∧ 0 < (ratio x).2 :=
  ⟨Nat.mul_pos hx (powTwo_pos _).1, (powTwo_pos _).2⟩

theorem magnitude_ratio (hx : 0 < significand x) (hc : Canonical (significand x) (exponent x)) :
    (10 : ℚ) ^ (magnitude (ratio x).1 (ratio x).2 - 1) ≤ 2 ^ (56 : Int) * 2 ^ (exponent x - 2) := by
  obtain ⟨hlow, hhigh⟩ := ratio_bounds hx hc
  have hlimit : (2 : ℚ) ^ (53 : Int) * 2 ^ exponent x ≤ 2 ^ (1024 : Int) := by
    rw [← zpow_add₀ two_ne_zero]
    exact zpow_le_zpow_right₀ one_le_two (by have := hc.high; omega)
  have hten := magnitude_spec (ratio_pos hx).1 (ratio_pos hx).2 hlow (lt_of_lt_of_le hhigh hlimit)
  refine le_trans hten ?_
  calc 2 * ((ratio x).1 / (ratio x).2 : ℚ) ≤ 2 * (2 ^ (53 : Int) * 2 ^ exponent x) := by gcongr
    _ = 2 ^ (56 : Int) * 2 ^ (exponent x - 2) := by
      rw [zpow_sub₀ two_ne_zero]
      ring

/-- Seventeen digits reach into the interval. -/
theorem grid_le (hx : 0 < significand x) (hc : Canonical (significand x) (exponent x)) :
    (grid (powTwo (exponent x - 2)) (magnitude (ratio x).1 (ratio x).2 - 1 - (17 : Nat))).1 ≤
      (grid (powTwo (exponent x - 2)) (magnitude (ratio x).1 (ratio x).2 - 1 - (17 : Nat))).2 := by
  have hten := magnitude_ratio hx hc
  have hquotient : quotient (grid (powTwo (exponent x - 2))
      (magnitude (ratio x).1 (ratio x).2 - 1 - (17 : Nat))) ≤ 1 := by
    rw [quotient_grid, quotient_powTwo, div_le_one (by positivity), zpow_sub₀ (by norm_num),
      div_le_iff₀ (by positivity)]
    refine le_trans hten ?_
    rw [mul_comm]
    gcongr
    norm_num
  have hpos : (0 : ℚ) < (grid (powTwo (exponent x - 2))
      (magnitude (ratio x).1 (ratio x).2 - 1 - (17 : Nat))).2 := by
    exact_mod_cast Nat.mul_pos (powTen_pos _).2 (powTwo_pos _).1
  rw [quotient, div_le_one hpos] at hquotient
  exact_mod_cast hquotient

theorem shortest_spec (hx : 0 < significand x) (hc : Canonical (significand x) (exponent x)) :
    0 < (shortest x).digits ∧
      Nearest (significand x) (exponent x) ((shortest x).value / 2 ^ (exponent x - 2)) := by
  have hgrid (e : Int) :
      0 < (grid (powTwo (exponent x - 2)) e).1 ∧ 0 < (grid (powTwo (exponent x - 2)) e).2 :=
    ⟨Nat.mul_pos (powTen_pos e).1 (powTwo_pos _).2, Nat.mul_pos (powTen_pos e).2 (powTwo_pos _).1⟩
  obtain ⟨c, k, -, hpick, hsearch⟩ := (Interval.around x).search_eq (magnitude (ratio x).1 (ratio x).2)
    (powTwo (exponent x - 2)) 18 (magnitude (ratio x).1 (ratio x).2 - 1)
    ⟨17, by decide, Interval.pick?_of_le hx (hgrid _).1 (grid_le hx hc)⟩
  have hnear := Interval.nearest_of_holds hx (hgrid _).2 (Interval.holds_of_pick? hpick)
  have hvalue : (c * (grid (powTwo (exponent x - 2)) (magnitude (ratio x).1 (ratio x).2 - 1 - k)).1 /
      (grid (powTwo (exponent x - 2)) (magnitude (ratio x).1 (ratio x).2 - 1 - k)).2 : ℚ) =
      (⟨c, magnitude (ratio x).1 (ratio x).2 - 1 - k⟩ : Scaled).value / 2 ^ (exponent x - 2) := by
    rw [mul_div_assoc, ← quotient, quotient_grid, quotient_powTwo, mul_div_assoc']
    rfl
  rw [hvalue] at hnear
  have hdigits : 0 < c := by
    apply Nat.pos_of_ne_zero
    rintro rfl
    have hpos := hnear.pos hx
    rw [Scaled.value, Nat.cast_zero, zero_mul, zero_div] at hpos
    exact lt_irrefl _ hpos
  have hshortest : shortest x = Scaled.normal 20 ⟨c, magnitude (ratio x).1 (ratio x).2 - 1 - k⟩ := hsearch
  obtain ⟨hsame, hpos⟩ :=
    Scaled.normal_spec 20 (d := ⟨c, magnitude (ratio x).1 (ratio x).2 - 1 - k⟩) hdigits
  rw [hshortest, hsame]
  exact ⟨hpos, hnear⟩

end

/-- Digits with the value of the shortest ones are read as the number they were found for. -/
theorem ofDecimal_shortest {x : Float} (hfinite : x.isFinite = true) (hzero : isZero x = false)
    {d : Nat} {e : Int} (hd : 0 < d) (hvalue : (d * 10 ^ e : ℚ) = (shortest x).value) :
    signed (isNegative x) (ofDecimal d e) = x := by
  obtain ⟨hcanonical, hx⟩ := eq_coded_of_isFinite hfinite
  have hpos := significand_pos hfinite hzero
  obtain ⟨-, hnear⟩ := shortest_spec hpos hcanonical
  have hread : ofDecimal d e = coded false (codeOf (significand x) (exponent x)) := by
    apply ofDecimal_eq_coded hd hcanonical hnear
    rw [hvalue, div_mul_cancel₀ _ (by positivity)]
  rw [hread, signed_coded, ← hx]

end ScalarGraph.Decimal
