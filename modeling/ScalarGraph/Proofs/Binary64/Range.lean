import ScalarGraph.Proofs.Binary64.Rounding

/-! # The range of machine numbers

An integer has a nearest machine number below half a unit beyond the largest one, and none from
there on.
-/
namespace ScalarGraph.Binary64

def halfUnitExponent : Nat := 970

/-- Half a unit beyond the largest machine number, `2 ^ 1024 - 2 ^ 970`. -/
def rangeLimit : Nat := (2 ^ 54 - 1) * 2 ^ halfUnitExponent

section
variable {n : Nat}

theorem roundDiv_le_two_pow {e : Int} (h : (n : ℚ) < 2 ^ (e + 53)) :
    roundDiv (n * (powTwo e).2) (1 * (powTwo e).1) ≤ 2 ^ 53 := by
  have hlt : n * (powTwo e).2 < 2 * hiddenBit * 1 * (powTwo e).1 :=
    (fits_iff Nat.one_pos e).mpr (by rwa [Nat.cast_one, div_one])
  apply roundDiv_le
  rw [hiddenBit] at hlt
  omega

theorem powTwo_natCast (k : Nat) : powTwo k = (2 ^ k, 1) := by
  simp [powTwo]

theorem le_roundDiv_last_unit :
    2 ^ 53 ≤ roundDiv (n * (powTwo (halfUnitExponent + 1 : Nat)).2)
      (1 * (powTwo (halfUnitExponent + 1 : Nat)).1) ↔ rangeLimit ≤ n := by
  have hpos : 0 < 2 ^ halfUnitExponent := Nat.two_pow_pos _
  rw [powTwo_natCast]
  dsimp only
  rw [rangeLimit, Nat.mul_one, Nat.one_mul, pow_succ' 2 halfUnitExponent]
  generalize 2 ^ halfUnitExponent = unit at *
  constructor
  · intro hle
    by_contra hlt
    have hround : roundDiv n (2 * unit) ≤ 2 ^ 53 - 1 := roundDiv_le (by omega)
    omega
  · intro hle
    exact le_roundDiv (by omega) (by decide) (by omega)

/-- The code of an integer reaches that of infinity at the limit of the range. -/
theorem infinityCode_le_iff (hn : 0 < n) :
    infinityCode ≤ (max (unitExponent n 1) (-1074) + 1074).toNat * 2 ^ 52 +
      roundDiv (n * (powTwo (max (unitExponent n 1) (-1074))).2)
        (1 * (powTwo (max (unitExponent n 1) (-1074))).1) ↔ rangeLimit ≤ n := by
  obtain ⟨hlow, hhigh⟩ := unitExponent_spec hn Nat.one_pos
  rw [Nat.cast_one, div_one] at hlow hhigh
  generalize unitExponent n 1 = e at *
  have hone : (1 : ℚ) ≤ n := by exact_mod_cast hn
  have he : -53 < e := by
    by_contra hle
    have hsmall : (2 : ℚ) ^ (e + 53) ≤ 2 ^ (0 : Int) := zpow_le_zpow_right₀ one_le_two (by omega)
    rw [zpow_zero] at hsmall
    linarith
  have hhalf : halfUnitExponent = 970 := rfl
  rw [max_eq_left (by omega), infinityCode]
  have hround := roundDiv_le_two_pow hhigh
  rcases Int.lt_trichotomy e (halfUnitExponent + 1 : Nat) with hbelow | rfl | habove
  · -- too small for the code, and below `2 ^ 1023`
    have hlt : (n : ℚ) < 2 ^ (53 + halfUnitExponent) := by
      rw [← zpow_natCast]
      exact hhigh.trans_le (zpow_le_zpow_right₀ one_le_two (by omega))
    have hlt' : n < 2 ^ 53 * 2 ^ halfUnitExponent := by
      rw [← pow_add]
      exact_mod_cast hlt
    rw [rangeLimit]
    generalize 2 ^ halfUnitExponent = unit at *
    omega
  · rw [← le_roundDiv_last_unit]
    omega
  · obtain ⟨k, rfl⟩ : ∃ k : Nat, e = k := ⟨e.toNat, by omega⟩
    have hle : 2 ^ 52 * 2 ^ k ≤ n := by
      rw [← pow_add, add_comm]
      exact_mod_cast hlow
    have hround' : 2 ^ 52 ≤ roundDiv (n * (powTwo k).2) (1 * (powTwo k).1) := by
      rw [powTwo_natCast]
      exact le_roundDiv (by simp) (by decide) (by omega)
    have hunit : 2 ^ 2 * 2 ^ halfUnitExponent ≤ 2 ^ k := by
      rw [← pow_add]
      exact Nat.pow_le_pow_right (by decide) (by omega)
    rw [rangeLimit]
    generalize 2 ^ halfUnitExponent = unit at *
    generalize 2 ^ k = unit' at *
    omega

end

/-- An integer has no machine number just where its magnitude reaches the limit of the range. -/
theorem ofInt?_eq_none {i : Int} : ofInt? i = none ↔ rangeLimit ≤ i.natAbs := by
  unfold ofInt?
  rcases Nat.eq_zero_or_pos i.natAbs with h0 | hpos
  · have hlimit : 0 < rangeLimit := Nat.mul_pos (by decide) (Nat.two_pow_pos _)
    have hzero : (ofRatio 0 1 == infinity) = false := by decide +kernel
    simp only [h0, hzero, Bool.false_eq_true, if_false, reduceCtorEq, false_iff]
    omega
  · have hcode := infinityCode_le_iff hpos
    rw [ofRatio_eq hpos Nat.one_pos, ← hcode]
    dsimp only
    generalize (max (unitExponent i.natAbs 1) (-1074) + 1074).toNat * 2 ^ 52 +
      roundDiv (i.natAbs * (powTwo (max (unitExponent i.natAbs 1) (-1074))).2)
        (1 * (powTwo (max (unitExponent i.natAbs 1) (-1074))).1) = code
    by_cases hle : infinityCode ≤ code
    · have hself : (infinity == infinity) = true := by decide +kernel
      simp [hle, hself]
    · simp [hle, beq_infinity_coded (Nat.lt_of_not_le hle)]

end ScalarGraph.Binary64
