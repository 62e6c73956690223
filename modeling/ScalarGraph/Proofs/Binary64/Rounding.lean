import Mathlib.Algebra.Order.Field.Power
import Mathlib.Data.Nat.Cast.Field
import Mathlib.Data.Rat.Cast.Order
import Mathlib.Tactic.FieldSimp
import Mathlib.Tactic.Linarith
import Mathlib.Tactic.Positivity
import Mathlib.Tactic.Ring
import ScalarGraph.Proofs.Binary64.Parts

/-! # Rounding to machine numbers

The rational numbers nearest to a machine number fill an interval around it. A quotient in the
interval is rounded to that number.
-/
namespace ScalarGraph.Binary64

def quotient (p : Nat × Nat) : ℚ := p.1 / p.2

theorem powTwo_pos (e : Int) : 0 < (powTwo e).1 ∧ 0 < (powTwo e).2 :=
  ⟨Nat.pow_pos (by decide), Nat.pow_pos (by decide)⟩

theorem powTen_pos (e : Int) : 0 < (powTen e).1 ∧ 0 < (powTen e).2 :=
  ⟨Nat.pow_pos (by decide), Nat.pow_pos (by decide)⟩

theorem pow_div_pow (b : ℚ) (hb : b ≠ 0) (e : Int) : b ^ e.toNat / b ^ (-e).toNat = b ^ e := by
  rw [← zpow_natCast, ← zpow_natCast, ← zpow_sub₀ hb]
  congr 1
  omega

theorem quotient_powTwo (e : Int) : quotient (powTwo e) = 2 ^ e := by
  have h := pow_div_pow 2 (by decide) e
  unfold quotient powTwo
  simp only [Nat.pow_eq]
  push_cast
  exact h

theorem quotient_powTen (e : Int) : quotient (powTen e) = 10 ^ e := by
  have h := pow_div_pow 10 (by decide) e
  unfold quotient powTen
  simp only [Nat.pow_eq]
  push_cast
  exact h

theorem mul_lt_mul_iff {num den : Nat} {p : Nat × Nat} (k : Nat) (hden : 0 < den) (hp : 0 < p.2) :
    num * p.2 < k * den * p.1 ↔ (num / den : ℚ) < k * quotient p := by
  have hden' : (0 : ℚ) < den := by exact_mod_cast hden
  have hp' : (0 : ℚ) < p.2 := by exact_mod_cast hp
  rw [quotient, ← mul_div_assoc, div_lt_div_iff₀ hden' hp', ← Nat.cast_lt (α := ℚ)]
  push_cast
  rw [mul_right_comm (k : ℚ)]

theorem mul_div_mul {num den : Nat} {p : Nat × Nat} :
    ((num * p.2 : Nat) : ℚ) / (den * p.1 : Nat) = (num / den : ℚ) / quotient p := by
  unfold quotient
  push_cast
  rw [div_div_div_eq]

theorem roundDiv_eq {num den m : Nat} (hden : 0 < den) (hlow : 2 * m * den ≤ 2 * num + den)
    (hhigh : 2 * num ≤ (2 * m + 1) * den)
    (hodd : m % 2 = 1 → 2 * m * den < 2 * num + den ∧ 2 * num < (2 * m + 1) * den) :
    roundDiv num den = m := by
  have hdiv := Nat.div_add_mod num den
  have hmod := Nat.mod_lt num hden
  show (if 2 * (num % den) < den then num / den
    else if den < 2 * (num % den) then num / den + 1 else num / den + num / den % 2) = m
  generalize num / den = q at *
  generalize num % den = r at *
  have hqm : q ≤ m := by
    by_contra h
    have hle : (m + 1) * den ≤ q * den := Nat.mul_le_mul_right den (by omega)
    nlinarith
  have hmq : m ≤ q + 1 := by
    by_contra h
    have hle : (q + 2) * den ≤ m * den := Nat.mul_le_mul_right den (by omega)
    nlinarith
  have hq : q * den = den * q := Nat.mul_comm q den
  obtain rfl | rfl : m = q ∨ m = q + 1 := by omega
  · simp only [Nat.add_mul, Nat.mul_assoc, hq, Nat.one_mul] at hlow hhigh hodd
    split
    · rfl
    · rw [if_neg (by omega)]
      omega
  · simp only [Nat.add_mul, Nat.mul_add, Nat.mul_assoc, hq, Nat.one_mul] at hlow hhigh hodd
    rw [if_neg (by omega)]
    split
    · rfl
    · omega

theorem roundDiv_eq_of_near {num den m : Nat} (hden : 0 < den) (hlow : (2 * m - 1 : ℚ) ≤ 2 * (num / den))
    (hhigh : 2 * (num / den : ℚ) ≤ 2 * m + 1)
    (hodd : m % 2 = 1 → (2 * m - 1 : ℚ) < 2 * (num / den) ∧ 2 * (num / den : ℚ) < 2 * m + 1) :
    roundDiv num den = m := by
  have hden' : (0 : ℚ) < den := by exact_mod_cast hden
  rw [← mul_div_assoc] at hlow hhigh hodd
  simp only [le_div_iff₀ hden', div_le_iff₀ hden', lt_div_iff₀ hden', div_lt_iff₀ hden'] at hlow hhigh hodd
  apply roundDiv_eq hden
  · rw [← Nat.cast_le (α := ℚ)]
    push_cast
    linarith
  · rw [← Nat.cast_le (α := ℚ)]
    push_cast
    linarith
  · intro h
    obtain ⟨h1, h2⟩ := hodd h
    constructor
    · rw [← Nat.cast_lt (α := ℚ)]
      push_cast
      linarith
    · rw [← Nat.cast_lt (α := ℚ)]
      push_cast
      linarith

theorem roundDiv_le {num den m : Nat} (h : 2 * num < (2 * m + 1) * den) : roundDiv num den ≤ m := by
  have hdiv := Nat.div_add_mod num den
  show (if 2 * (num % den) < den then num / den
    else if den < 2 * (num % den) then num / den + 1 else num / den + num / den % 2) ≤ m
  generalize num / den = q at *
  generalize num % den = r at *
  have hqm : q ≤ m := by
    by_contra hlt
    have hle : (m + 1) * den ≤ q * den := Nat.mul_le_mul_right den (by omega)
    nlinarith
  split
  · exact hqm
  · -- what is rounded up is no further than `m`
    have hlt : q < m := by
      by_contra hle
      obtain rfl : q = m := by omega
      nlinarith
    split <;> omega

theorem le_roundDiv {num den m : Nat} (hden : 0 < den) (hm : m % 2 = 0)
    (h : 2 * m * den ≤ 2 * num + den) : m ≤ roundDiv num den := by
  have hdiv := Nat.div_add_mod num den
  have hmod := Nat.mod_lt num hden
  show m ≤ if 2 * (num % den) < den then num / den
    else if den < 2 * (num % den) then num / den + 1 else num / den + num / den % 2
  generalize num / den = q at *
  generalize num % den = r at *
  have hmq : m ≤ q + 1 := by
    by_contra hlt
    have hle : (q + 2) * den ≤ m * den := Nat.mul_le_mul_right den (by omega)
    nlinarith
  rcases Nat.lt_or_ge q m with hlt | hle
  · obtain rfl : m = q + 1 := by omega
    have hhalf : den ≤ 2 * r := by nlinarith
    rw [if_neg (by omega)]
    split <;> omega
  · split
    · exact hle
    · split <;> omega

/-- How many quarters of its last place the interval around a number reaches down. -/
def gap (m : Nat) (e : Int) : Nat := if m = 2 ^ 52 ∧ -1074 < e then 1 else 2

theorem gap_pos (m : Nat) (e : Int) : 1 ≤ gap m e ∧ gap m e ≤ 2 := by
  unfold gap
  split <;> omega

/-- A rational number nearest to `m * 2 ^ e`, in quarters of the last place. -/
structure Nearest (m : Nat) (e : Int) (w : ℚ) : Prop where
  low : 4 * m - gap m e ≤ w
  high : w ≤ 4 * m + 2
  odd : m % 2 = 1 → 4 * m - gap m e < w ∧ w < 4 * m + 2

/-- The exponent that brings a quotient to 53 digits before the point. -/
def unitExponent (num den : Nat) : Int :=
  let estimate : Int := (num.log2 : Int) - den.log2 - 52
  if num * (powTwo (estimate - 1)).2 < 2 * hiddenBit * den * (powTwo (estimate - 1)).1 then estimate - 1
  else estimate

theorem ofRatio_eq {num den : Nat} (hnum : 0 < num) (hden : 0 < den) :
    ofRatio num den =
      let e := max (unitExponent num den) (-1074)
      let n := (e + 1074).toNat * 2 ^ 52 + roundDiv (num * (powTwo e).2) (den * (powTwo e).1)
      if infinityCode ≤ n then infinity else coded false n := by
  unfold ofRatio
  rw [if_neg (by omega)]
  simp only [decide_eq_true_eq]
  rfl

section
variable {num den : Nat}

theorem two_pow_log2 (hnum : 0 < num) :
    (2 : ℚ) ^ (num.log2 : Int) ≤ num ∧ (num : ℚ) < 2 ^ ((num.log2 : Int) + 1) := by
  have hlow := Nat.log2_self_le (Nat.ne_of_gt hnum)
  have hhigh := Nat.lt_log2_self (n := num)
  constructor
  · rw [zpow_natCast]
    exact_mod_cast hlow
  · rw [← Nat.cast_one, ← Nat.cast_add, zpow_natCast]
    exact_mod_cast hhigh

theorem fits_iff (hden : 0 < den) (e : Int) :
    num * (powTwo e).2 < 2 * hiddenBit * den * (powTwo e).1 ↔ (num / den : ℚ) < 2 ^ (e + 53) := by
  have h53 : ((2 * hiddenBit : Nat) : ℚ) = 2 ^ (53 : Int) := by norm_num [hiddenBit]
  rw [mul_lt_mul_iff _ hden (powTwo_pos _).2, quotient_powTwo, h53, ← zpow_add₀ two_ne_zero,
    add_comm]

theorem log2_bounds (hnum : 0 < num) (hden : 0 < den) :
    (2 : ℚ) ^ ((num.log2 : Int) - den.log2 - 1) ≤ num / den ∧
      (num / den : ℚ) < 2 ^ ((num.log2 : Int) - den.log2 + 1) := by
  obtain ⟨hn1, hn2⟩ := two_pow_log2 hnum
  obtain ⟨hd1, hd2⟩ := two_pow_log2 hden
  have hden' : (0 : ℚ) < den := by exact_mod_cast hden
  constructor
  · rw [le_div_iff₀ hden']
    calc (2 : ℚ) ^ ((num.log2 : Int) - den.log2 - 1) * den
        ≤ 2 ^ ((num.log2 : Int) - den.log2 - 1) * 2 ^ ((den.log2 : Int) + 1) := by
          gcongr
      _ = 2 ^ (num.log2 : Int) := by
          rw [← zpow_add₀ two_ne_zero]
          congr 1
          omega
      _ ≤ num := hn1
  · rw [div_lt_iff₀ hden']
    calc (num : ℚ) < 2 ^ ((num.log2 : Int) + 1) := hn2
      _ = 2 ^ ((num.log2 : Int) - den.log2 + 1) * 2 ^ (den.log2 : Int) := by
          rw [← zpow_add₀ two_ne_zero]
          congr 1
          omega
      _ ≤ 2 ^ ((num.log2 : Int) - den.log2 + 1) * den := by
          gcongr

theorem unitExponent_spec (hnum : 0 < num) (hden : 0 < den) :
    (2 : ℚ) ^ (unitExponent num den + 52) ≤ num / den ∧
      (num / den : ℚ) < 2 ^ (unitExponent num den + 53) := by
  obtain ⟨hlow, hhigh⟩ := log2_bounds hnum hden
  have hfits := @fits_iff num den hden ((num.log2 : Int) - den.log2 - 52 - 1)
  unfold unitExponent
  by_cases h : (num / den : ℚ) < 2 ^ ((num.log2 : Int) - den.log2 - 52 - 1 + 53)
  · simp only [if_pos (hfits.mpr h)]
    refine ⟨?_, h⟩
    rw [sub_right_comm, sub_add_cancel]
    exact hlow
  · simp only [if_neg fun hlt => h (hfits.mp hlt)]
    have hsame : (num.log2 : Int) - den.log2 - 52 + 52 = num.log2 - den.log2 - 52 - 1 + 53 := by omega
    constructor
    · rw [hsame]
      exact not_lt.mp h
    · convert hhigh using 2
      omega

variable {w : ℚ} {m : Nat} {e : Int}

theorem unitExponent_quarters (hnum : 0 < num) (hden : 0 < den)
    (hw : (num / den : ℚ) = w * 2 ^ (e - 2)) :
    (2 : ℚ) ^ (unitExponent num den - e + 54) ≤ w ∧ w < 2 ^ (unitExponent num den - e + 55) := by
  obtain ⟨hlow, hhigh⟩ := unitExponent_spec hnum hden
  have hunit : (0 : ℚ) < 2 ^ (e - 2) := by positivity
  have hsplit (k : Int) :
      (2 : ℚ) ^ (unitExponent num den + k) = 2 ^ (unitExponent num den - e + (k + 2)) * 2 ^ (e - 2) := by
    rw [← zpow_add₀ two_ne_zero]
    congr 1
    omega
  rw [hw, hsplit] at hlow hhigh
  exact ⟨le_of_mul_le_mul_right hlow hunit, lt_of_mul_lt_mul_right hhigh hunit.le⟩

theorem roundDiv_quarters (hden : 0 < den) (hw : (num / den : ℚ) = w * 2 ^ (e - 2)) (k : Int)
    (hlow : 2 * m - 1 ≤ 2 * (w / 2 ^ k)) (hhigh : 2 * (w / 2 ^ k) ≤ 2 * m + 1)
    (hodd : m % 2 = 1 → 2 * m - 1 < 2 * (w / 2 ^ k) ∧ 2 * (w / 2 ^ k) < 2 * m + 1) :
    roundDiv (num * (powTwo (e - 2 + k)).2) (den * (powTwo (e - 2 + k)).1) = m := by
  have hunit : (2 : ℚ) ^ (e - 2) ≠ 0 := by positivity
  have hvalue : ((num * (powTwo (e - 2 + k)).2 : Nat) : ℚ) / (den * (powTwo (e - 2 + k)).1 : Nat) =
      w / 2 ^ k := by
    rw [mul_div_mul, quotient_powTwo, hw, zpow_add₀ two_ne_zero, mul_comm ((2 : ℚ) ^ (e - 2)),
      mul_div_mul_right _ _ hunit]
  apply roundDiv_eq_of_near (Nat.mul_pos hden (powTwo_pos _).1)
  · rw [hvalue]
    exact hlow
  · rw [hvalue]
    exact hhigh
  · rw [hvalue]
    exact hodd

theorem Nearest.lt_two_pow (h : Nearest m e w) (hc : Canonical m e) : w < 2 ^ (55 : Int) := by
  have hhigh := h.high
  have hlt : (m : ℚ) + 1 ≤ 2 ^ 53 := by exact_mod_cast hc.lt
  norm_num
  linarith

theorem unitExponent_le (hnum : 0 < num) (hden : 0 < den) (h : Canonical m e) (hnear : Nearest m e w)
    (hw : (num / den : ℚ) = w * 2 ^ (e - 2)) : unitExponent num den ≤ e := by
  obtain ⟨hbelow, -⟩ := unitExponent_quarters hnum hden hw
  by_contra hU
  have h55 : (2 : ℚ) ^ (55 : Int) ≤ w :=
    le_trans (zpow_le_zpow_right₀ one_le_two (by omega)) hbelow
  exact absurd (hnear.lt_two_pow h) (not_lt.mpr h55)

theorem roundDiv_nearest (hden : 0 < den) (hnear : Nearest m e w) (hw : (num / den : ℚ) = w * 2 ^ (e - 2)) :
    roundDiv (num * (powTwo e).2) (den * (powTwo e).1) = m := by
  obtain ⟨hlow, hhigh, hodd⟩ := hnear
  have hgap : (gap m e : ℚ) ≤ 2 := by exact_mod_cast (gap_pos m e).2
  have hround := roundDiv_quarters (m := m) hden hw 2
  rw [sub_add_cancel] at hround
  apply hround
  · norm_num
    linarith
  · norm_num
    linarith
  · intro hm
    obtain ⟨h1, h2⟩ := hodd hm
    norm_num
    constructor <;> linarith

/-- Below a power of two the last place is half as large, and the quotient is rounded up to the power. -/
theorem roundDiv_below (hden : 0 < den) (hw : (num / den : ℚ) = w * 2 ^ (e - 2))
    (hlow : 4 * 2 ^ 52 - 1 ≤ w) (hhigh : w < 2 ^ (54 : Int)) :
    roundDiv (num * (powTwo (e - 2 + 1)).2) (den * (powTwo (e - 2 + 1)).1) = 2 ^ 53 := by
  norm_num at hlow hhigh
  apply roundDiv_quarters hden hw 1
  · norm_num
    linarith
  · norm_num
    linarith
  · intro hodd
    norm_num at hodd

/-- A quotient nearest to a number is rounded to it. -/
theorem ofRatio_eq_coded (hnum : 0 < num) (hden : 0 < den) (h : Canonical m e) (hnear : Nearest m e w)
    (hw : (num / den : ℚ) = w * 2 ^ (e - 2)) : ofRatio num den = coded false (codeOf m e) := by
  obtain ⟨-, habove⟩ := unitExponent_quarters hnum hden hw
  have hcode := h.code_lt
  have hU := unitExponent_le hnum hden h hnear hw
  obtain ⟨-, hmin, -, hnormal⟩ := h
  rw [ofRatio_eq hnum hden]
  by_cases hcase : unitExponent num den = e ∨ e = -1074
  · have hmax : max (unitExponent num den) (-1074) = e := by omega
    simp only [hmax, roundDiv_nearest hden hnear hw]
    exact if_neg (not_le.mpr hcode)
  · obtain ⟨hlow, -, -⟩ := hnear
    have hpow {k : Int} (hk : unitExponent num den - e + 55 ≤ k) : w < 2 ^ k :=
      lt_of_lt_of_le habove (zpow_le_zpow_right₀ one_le_two hk)
    have h54 : w < 2 ^ (54 : Int) := hpow (by omega)
    have hgap : (gap m e : ℚ) ≤ 2 := by exact_mod_cast (gap_pos m e).2
    have hm : m = 2 ^ 52 := by
      have hle : (m : ℚ) < 2 ^ 52 + 1 := by
        norm_num at h54
        linarith
      have hle' : m < 2 ^ 52 + 1 := by exact_mod_cast hle
      omega
    have hgap1 : gap m e = 1 := if_pos ⟨hm, by omega⟩
    rw [hgap1, hm] at hlow
    have hlow' : 4 * 2 ^ 52 - 1 ≤ w := by exact_mod_cast hlow
    have hU' : unitExponent num den = e - 1 := by
      by_contra hne
      have h53 : w < 2 ^ (53 : Int) := hpow (by omega)
      norm_num at h53 hlow'
      linarith
    have hmax : max (unitExponent num den) (-1074) = e - 2 + 1 := by omega
    have hsame : (e - 2 + 1 + 1074).toNat * 2 ^ 52 + 2 ^ 53 = codeOf m e := by
      rw [codeOf, hm]
      omega
    simp only [hmax, roundDiv_below hden hw hlow' h54, hsame]
    exact if_neg (not_le.mpr hcode)

theorem nearest_self (m : Nat) (e : Int) : Nearest m e (4 * m) := by
  have hgap : (1 : ℚ) ≤ gap m e := by exact_mod_cast (gap_pos m e).1
  constructor
  · linarith
  · linarith
  · intro _
    constructor <;> linarith

end

section
variable {w : ℚ} {m : Nat} {e : Int}

theorem Nearest.pos (h : Nearest m e w) (hm : 0 < m) : 0 < w := by
  have hlow := h.low
  have hm' : (1 : ℚ) ≤ m := by exact_mod_cast hm
  have hgap : (gap m e : ℚ) ≤ 2 := by exact_mod_cast (gap_pos m e).2
  linarith

theorem ten_pow_log2_le {d : Nat} (hd : 0 < d) : 10 ^ (d.log2 * 3 / 10) ≤ d := by
  have hlog := Nat.log2_self_le (Nat.ne_of_gt hd)
  refine le_trans ?_ hlog
  have hten : (10 ^ (d.log2 * 3 / 10)) ^ 3 ≤ (2 ^ d.log2) ^ 3 :=
    calc (10 ^ (d.log2 * 3 / 10)) ^ 3 = (10 ^ 3) ^ (d.log2 * 3 / 10) := by
          rw [← pow_mul, ← pow_mul, Nat.mul_comm]
      _ ≤ (2 ^ 10) ^ (d.log2 * 3 / 10) := Nat.pow_le_pow_left (by decide) _
      _ = 2 ^ (10 * (d.log2 * 3 / 10)) := by rw [← pow_mul]
      _ ≤ 2 ^ (d.log2 * 3) := Nat.pow_le_pow_right (by decide) (by omega)
      _ = (2 ^ d.log2) ^ 3 := by rw [← pow_mul]
  exact (Nat.pow_le_pow_iff_left (by decide)).mp hten

theorem lt_ten_pow_log2 (d : Nat) : d < 10 ^ (d.log2 / 3 + 1) :=
  calc d < 2 ^ (d.log2 + 1) := Nat.lt_log2_self
    _ ≤ 2 ^ (3 * (d.log2 / 3 + 1)) := Nat.pow_le_pow_right (by decide) (by omega)
    _ = (2 ^ 3) ^ (d.log2 / 3 + 1) := by rw [pow_mul]
    _ ≤ 10 ^ (d.log2 / 3 + 1) := Nat.pow_le_pow_left (by decide) _

/-- Half of the least positive number and what is below it is rounded to zero. -/
theorem ofRatio_underflow {num den : Nat} (hnum : 0 < num) (hden : 0 < den)
    (h : (num / den : ℚ) ≤ 2 ^ (-1075 : Int)) : ofRatio num den = 0.0 := by
  obtain ⟨hlow, -⟩ := unitExponent_spec hnum hden
  have hU : unitExponent num den + 52 ≤ -1075 :=
    (zpow_le_zpow_iff_right₀ one_lt_two).mp (hlow.trans h)
  have hmax : max (unitExponent num den) (-1074) = -1074 := by omega
  have hround : roundDiv (num * (powTwo (-1074)).2) (den * (powTwo (-1074)).1) = 0 := by
    have hvalue := @mul_div_mul num den (powTwo (-1074))
    have hhalf : 2 * ((num / den : ℚ) / quotient (powTwo (-1074))) ≤ 1 := by
      rw [quotient_powTwo, mul_div_assoc', div_le_one (by positivity)]
      calc 2 * (num / den : ℚ) ≤ 2 * 2 ^ (-1075 : Int) := by gcongr
        _ = 2 ^ (-1074 : Int) := by
          rw [← zpow_one_add₀ two_ne_zero]
          rfl
    have hnonneg : 0 ≤ (num / den : ℚ) / quotient (powTwo (-1074)) := by
      rw [quotient_powTwo]
      positivity
    rw [← hvalue] at hhalf hnonneg
    apply roundDiv_eq_of_near (Nat.mul_pos hden (powTwo_pos _).1)
    · rw [Nat.cast_zero]
      linarith
    · rw [Nat.cast_zero]
      linarith
    · intro hodd
      cases hodd
  rw [ofRatio_eq hnum hden]
  simp only [hmax, hround]
  decide +kernel

theorem ofRatio_overflow {num den : Nat} (hnum : 0 < num) (hden : 0 < den)
    (h : (2 : ℚ) ^ (1024 : Int) ≤ num / den) : ofRatio num den = infinity := by
  obtain ⟨hlow, hhigh⟩ := unitExponent_spec hnum hden
  have hU : 1024 < unitExponent num den + 53 :=
    (zpow_lt_zpow_iff_right₀ one_lt_two).mp (h.trans_lt hhigh)
  have hmax : max (unitExponent num den) (-1074) = unitExponent num den := by omega
  have hround : 2 ^ 52 ≤ roundDiv (num * (powTwo (unitExponent num den)).2)
      (den * (powTwo (unitExponent num den)).1) := by
    have hpos := Nat.mul_pos hden (powTwo_pos (unitExponent num den)).1
    have hvalue := @mul_div_mul num den (powTwo (unitExponent num den))
    apply le_roundDiv hpos (by decide)
    have hle : 2 ^ 52 * (den * (powTwo (unitExponent num den)).1) ≤
        num * (powTwo (unitExponent num den)).2 := by
      rw [← Nat.cast_le (α := ℚ), Nat.cast_mul, ← le_div_iff₀ (by exact_mod_cast hpos), hvalue,
        quotient_powTwo, le_div_iff₀ (by positivity)]
      calc ((2 ^ 52 : Nat) : ℚ) * 2 ^ unitExponent num den = 2 ^ (unitExponent num den + 52) := by
            rw [zpow_add₀ two_ne_zero, mul_comm]
            norm_num
        _ ≤ num / den := hlow
    omega
  rw [ofRatio_eq hnum hden]
  simp only [hmax]
  exact if_pos (by
    rw [infinityCode]
    omega)

theorem quotient_ofDecimal (d : Nat) (k : Int) :
    ((d * (powTen k).1 : Nat) : ℚ) / (powTen k).2 = d * 10 ^ k := by
  rw [← quotient_powTen, quotient, mul_div_assoc', Nat.cast_mul]

/-- A decimal number is read as the number nearest to it, however many digits it has. -/
theorem ofDecimal_eq_ofRatio (d : Nat) (k : Int) :
    ofDecimal d k = ofRatio (d * (powTen k).1) (powTen k).2 := by
  rcases Nat.eq_zero_or_pos d with rfl | hd
  · rw [Nat.zero_mul]
    exact (if_pos (.inl rfl)).trans (if_pos (.inl rfl)).symm
  obtain ⟨hnum, hden⟩ := powTen_pos k
  unfold ofDecimal
  split
  · next h =>
    have hsmall := h.resolve_left hd.ne'
    refine (ofRatio_underflow (Nat.mul_pos hd hnum) hden ?_).symm
    have hlog : (d : ℚ) ≤ 10 ^ (d.log2 / 3 + 1) := by exact_mod_cast (lt_ten_pow_log2 d).le
    have hpow : (10 : ℚ) ^ (-400 : Int) ≤ 2 ^ (-1075 : Int) := by
      have hnat : 2 ^ 1075 ≤ 10 ^ 400 := by decide +kernel
      rw [zpow_neg, zpow_neg]
      refine inv_anti₀ (by positivity) ?_
      exact_mod_cast hnat
    rw [quotient_ofDecimal]
    calc (d : ℚ) * 10 ^ k ≤ 10 ^ (d.log2 / 3 + 1) * 10 ^ k := by gcongr
      _ = 10 ^ ((d.log2 / 3 + 1 : Nat) + k) := by
          rw [zpow_add₀ (by norm_num), zpow_natCast]
      _ ≤ 10 ^ (-400 : Int) := zpow_le_zpow_right₀ (by norm_num) hsmall.le
      _ ≤ 2 ^ (-1075 : Int) := hpow
  · split
    · next hlarge =>
      refine (ofRatio_overflow (Nat.mul_pos hd hnum) hden ?_).symm
      have hlog : ((10 : ℚ) ^ (d.log2 * 3 / 10)) ≤ d := by exact_mod_cast ten_pow_log2_le hd
      have hpow : (2 : ℚ) ^ (1024 : Int) ≤ 10 ^ (400 : Int) := by
        have hnat : 2 ^ 1024 ≤ 10 ^ 400 := by decide +kernel
        exact_mod_cast hnat
      rw [quotient_ofDecimal]
      calc (2 : ℚ) ^ (1024 : Int) ≤ 10 ^ (400 : Int) := hpow
        _ ≤ 10 ^ ((d.log2 * 3 / 10 : Nat) + k) := zpow_le_zpow_right₀ (by norm_num) hlarge.le
        _ = 10 ^ (d.log2 * 3 / 10) * 10 ^ k := by
            rw [zpow_add₀ (by norm_num), zpow_natCast]
        _ ≤ d * 10 ^ k := by gcongr
    · rfl

theorem ofDecimal_eq_coded {d : Nat} {k : Int} (hd : 0 < d) (hc : Canonical m e)
    (hnear : Nearest m e w) (hw : (d * 10 ^ k : ℚ) = w * 2 ^ (e - 2)) :
    ofDecimal d k = coded false (codeOf m e) := by
  have hpos := powTen_pos k
  rw [ofDecimal_eq_ofRatio]
  apply ofRatio_eq_coded (Nat.mul_pos hd hpos.1) hpos.2 hc hnear
  rw [quotient_ofDecimal, hw]

end

theorem ratio_value (x : Float) : ((ratio x).1 / (ratio x).2 : ℚ) = significand x * 2 ^ exponent x := by
  rw [← quotient_powTwo, quotient, mul_div_assoc', ← Nat.cast_mul]
  rfl

theorem toInt?_eq_some {x : Float} {i : Int} (h : toInt? x = some i) :
    x.isFinite = true ∧ (i.natAbs : ℚ) = significand x * 2 ^ exponent x ∧
      i = if isNegative x then -(i.natAbs : Int) else i.natAbs := by
  unfold toInt? at h
  cases hfinite : x.isFinite with
  | false =>
    rw [hfinite] at h
    cases h
  | true =>
    rw [hfinite] at h
    by_cases hdvd : (ratio x).1 % (ratio x).2 = 0
    · have hi := Option.some.inj ((if_pos hdvd).symm.trans h)
      have habs : i.natAbs = (ratio x).1 / (ratio x).2 := by
        rw [← hi]
        split
        · rw [Int.natAbs_neg, Int.natAbs_natCast]
        · rw [Int.natAbs_natCast]
      have hden : ((ratio x).2 : ℚ) ≠ 0 := by
        exact_mod_cast Nat.ne_of_gt (powTwo_pos (exponent x)).2
      refine ⟨rfl, ?_, ?_⟩
      · rw [habs, Nat.cast_div (Nat.dvd_of_mod_eq_zero hdvd) hden, ratio_value]
      · rw [habs]
        exact hi.symm
    · exact absurd ((if_neg hdvd).symm.trans h) (by simp)

theorem codeOf_zero {e : Int} (h : Canonical 0 e) : codeOf 0 e = 0 := by
  obtain ⟨-, -, -, hnormal⟩ := h
  unfold codeOf
  omega

theorem significand_pos {x : Float} (hfinite : x.isFinite = true) (hzero : isZero x = false) :
    0 < significand x := by
  obtain ⟨hcanonical, hx⟩ := eq_coded_of_isFinite hfinite
  apply Nat.pos_of_ne_zero
  intro h0
  rw [h0] at hcanonical hx
  rw [codeOf_zero hcanonical] at hx
  rw [hx, isZero_coded _ (Nat.zero_le _)] at hzero
  cases hzero

/-- The integer that a number is, is read as that number. -/
theorem ofInt?_toInt? {x : Float} {i : Int} (hi : toInt? x = some i)
    (hzero : ¬ (i = 0 ∧ isNegative x = true)) : ofInt? i = some x := by
  obtain ⟨hfinite, hvalue, hsign⟩ := toInt?_eq_some hi
  obtain ⟨hcanonical, hx⟩ := eq_coded_of_isFinite hfinite
  have hratio : ofRatio i.natAbs 1 = coded false (codeOf (significand x) (exponent x)) := by
    rcases Nat.eq_zero_or_pos i.natAbs with h0 | hpos
    · have h0' : significand x = 0 := by
        rw [h0] at hvalue
        have hpow : (2 : ℚ) ^ exponent x ≠ 0 := by positivity
        have hzero := (mul_eq_zero.mp hvalue.symm).resolve_right hpow
        exact_mod_cast hzero
      rw [h0'] at hcanonical ⊢
      rw [h0, codeOf_zero hcanonical]
      decide +kernel
    · apply ofRatio_eq_coded hpos Nat.one_pos hcanonical (nearest_self _ _)
      rw [Nat.cast_one, div_one, hvalue, zpow_sub₀ two_ne_zero]
      ring
  have hnegative : decide (i < 0) = isNegative x := by
    cases hneg : isNegative x with
    | true =>
      rw [hneg, if_pos rfl] at hsign
      have h0 : i ≠ 0 := fun h0 => hzero ⟨h0, hneg⟩
      exact decide_eq_true (by omega)
    | false =>
      rw [hneg, if_neg (by decide)] at hsign
      exact decide_eq_false (by omega)
  unfold ofInt?
  simp only [hratio, beq_infinity_coded hcanonical.code_lt, Bool.false_eq_true, if_false, hnegative,
    signed_coded, ← hx]

end ScalarGraph.Binary64
