import Mathlib.Algebra.Group.Nat.Defs
import ScalarGraph.Proofs.Binary64

/-! # The parts of machine numbers

A number is NaN, an infinity with a sign, or a sign with a code, which counts the magnitudes of the
finite numbers from zero on.
-/
namespace ScalarGraph.Binary64
open Float.Model UnpackedFloat

theorem toNat_packComponents (s : Sign) (e : BitVec 11) (m : BitVec 52) :
    (packComponents Format.binary64 s e m).toNat =
      s.toBitVec.toNat * 2 ^ 63 + e.toNat * 2 ^ 52 + m.toNat := by
  have he := e.isLt
  have hm := m.isLt
  have hpack : packComponents Format.binary64 s e m = s.toBitVec ++ e ++ m := rfl
  rw [hpack, BitVec.toNat_append, BitVec.toNat_append, ← Nat.shiftLeft_add_eq_or_of_lt hm,
    ← Nat.shiftLeft_add_eq_or_of_lt he, Nat.shiftLeft_eq, Nat.shiftLeft_eq]
  omega

@[simp] theorem unpackSign_packComponents (s : Sign) (e : BitVec 11) (m : BitVec 52) :
    unpackSign (packComponents Format.binary64 s e m) = s.toBitVec := by
  have hs := s.toBitVec.isLt
  have he := e.isLt
  have hm := m.isLt
  apply BitVec.eq_of_toNat_eq
  unfold unpackSign
  rw [BitVec.toNat_cast, BitVec.extractLsb_toNat, Nat.shiftRight_eq_div_pow, toNat_packComponents]
  simp only [Nat.sub_self]
  omega

@[simp] theorem ofBitVec_toBitVec (s : Sign) : Sign.ofBitVec s.toBitVec = s := by
  cases s <;> rfl

def bitsOf (s : Sign) (n : Nat) : BitVec 64 :=
  packComponents Format.binary64 s (BitVec.ofNat 11 (n / 2 ^ 52)) (BitVec.ofNat 52 n)

theorem toNat_bitsOf (s : Sign) {n : Nat} (hn : n < 2 ^ 63) :
    (bitsOf s n).toNat = s.toBitVec.toNat * 2 ^ 63 + n := by
  rw [bitsOf, toNat_packComponents, BitVec.toNat_ofNat, BitVec.toNat_ofNat]
  omega

theorem finite_congr {s t : Sign} {m n : Nat} {e f : Int} {hm : 0 < m} {hn : 0 < n} (hst : s = t)
    (hmn : m = n) (hef : e = f) : UnpackedFloat.finite s m e hm = .finite t n f hn := by
  cases hst
  cases hmn
  cases hef
  rfl

section
variable (s : Sign) {n : Nat}

theorem unpackSign_bitsOf : Sign.ofBitVec (@unpackSign Format.binary64 (bitsOf s n)) = s := by
  rw [bitsOf, unpackSign_packComponents, ofBitVec_toBitVec]

theorem unpack_subnormal (h0 : 0 < n) (hn : n < 2 ^ 52) :
    UnpackedFloat.unpack Format.binary64 (bitsOf s n) = .finite s n (-1074) h0 := by
  have he : @unpackExponent Format.binary64 (bitsOf s n) = 0#11 := by
    rw [bitsOf, unpackExponent_packComponents, Nat.div_eq_of_lt hn]
  have hm : (@unpackMantissa Format.binary64 (bitsOf s n)).toNat = n := by
    rw [bitsOf, unpackMantissa_packComponents, BitVec.toNat_ofNat]
    exact Nat.mod_eq_of_lt hn
  have hm0 : @unpackMantissa Format.binary64 (bitsOf s n) ≠ 0#52 := by
    intro h
    have hz := congrArg BitVec.toNat h
    rw [hm] at hz
    exact absurd hz (Nat.ne_of_gt h0)
  have hne : @unpackExponent Format.binary64 (bitsOf s n) ≠ -1#11 := by
    rw [he]
    decide
  unfold UnpackedFloat.unpack
  dsimp only
  rw [if_neg hne, if_pos he, dif_neg hm0]
  apply finite_congr (unpackSign_bitsOf s) hm
  rw [he]
  rfl

theorem unpack_normal (h0 : 2 ^ 52 ≤ n) (hn : n < 2047 * 2 ^ 52) :
    UnpackedFloat.unpack Format.binary64 (bitsOf s n) =
      .finite s (2 ^ 52 + n % 2 ^ 52) ((n / 2 ^ 52 : Nat) - 1075) (by omega) := by
  have he : (@unpackExponent Format.binary64 (bitsOf s n)).toNat = n / 2 ^ 52 := by
    rw [bitsOf, unpackExponent_packComponents, BitVec.toNat_ofNat]
    exact Nat.mod_eq_of_lt (show n / 2 ^ 52 < 2 ^ 11 by omega)
  have hm : (1#1 ++ @unpackMantissa Format.binary64 (bitsOf s n)).toNat = 2 ^ 52 + n % 2 ^ 52 := by
    rw [bitsOf, unpackMantissa_packComponents, BitVec.toNat_append,
      ← Nat.shiftLeft_add_eq_or_of_lt (BitVec.isLt _), Nat.shiftLeft_eq, BitVec.toNat_ofNat]
    rfl
  have he0 : @unpackExponent Format.binary64 (bitsOf s n) ≠ 0#11 := by
    intro h
    have hz := congrArg BitVec.toNat h
    rw [he] at hz
    simp only [BitVec.toNat_ofNat] at hz
    omega
  have he1 : @unpackExponent Format.binary64 (bitsOf s n) ≠ -1#11 := by
    intro h
    have hz := congrArg BitVec.toNat h
    have h1 : (-1#11 : BitVec 11).toNat = 2047 := by decide
    rw [he, h1] at hz
    omega
  unfold UnpackedFloat.unpack
  dsimp only
  rw [if_neg he1, if_neg he0]
  apply finite_congr (unpackSign_bitsOf s) hm
  rw [he]
  rfl

theorem pack_subnormal (h0 : 0 < n) (hn : n < 2 ^ 52) :
    UnpackedFloat.pack Format.binary64 (.finite s n (-1074) h0) = bitsOf s n := by
  have hlog : n.log2 < 52 := (Nat.log2_lt (Nat.ne_of_gt h0)).mpr hn
  have hnot : ¬ n.log2 + 1 = Format.binary64.mantissaBits := by
    have hbits : Format.binary64.mantissaBits = 53 := rfl
    omega
  have he : BitVec.ofNat 11 (n / 2 ^ 52) = 0#11 := by
    rw [Nat.div_eq_of_lt hn]
  unfold UnpackedFloat.pack
  rw [bitsOf, he]
  simp only [hnot, if_false]
  rfl

theorem pack_normal (h0 : 2 ^ 52 ≤ n) (hn : n < 2047 * 2 ^ 52) (h : 0 < 2 ^ 52 + n % 2 ^ 52) :
    UnpackedFloat.pack Format.binary64
      (.finite s (2 ^ 52 + n % 2 ^ 52) ((n / 2 ^ 52 : Nat) - 1075) h) = bitsOf s n := by
  have hlog : (2 ^ 52 + n % 2 ^ 52).log2 = 52 := by
    rw [Nat.log2_eq_iff (by omega)]
    omega
  have hexp : (((n / 2 ^ 52 : Nat) : Int) - 1075 + Format.binary64.exponentBias +
      Format.binary64.mantissaBitsWithoutImplicit).toNat = n / 2 ^ 52 := by
    have hbias : (Format.binary64.exponentBias : Int) = 1023 := rfl
    have hbits : (Format.binary64.mantissaBitsWithoutImplicit : Int) = 52 := rfl
    omega
  have hfits : ¬ 2 ^ Format.binary64.exponentBits ≤ n / 2 ^ 52 + 1 := by
    have hpow : 2 ^ Format.binary64.exponentBits = 2048 := rfl
    omega
  have hmant : BitVec.ofNat 52 (2 ^ 52 + n % 2 ^ 52) = BitVec.ofNat 52 n := by
    apply BitVec.eq_of_toNat_eq
    rw [BitVec.toNat_ofNat, BitVec.toNat_ofNat]
    omega
  unfold UnpackedFloat.pack
  simp only [hlog, hexp, hfits, if_false]
  rw [bitsOf, ← hmant]
  rfl

/-- Half of the codes, from that of infinity on, stand for no finite number. -/
def infinityCode : Nat := 2047 * 2 ^ 52

theorem code_cases (hn : n ≤ infinityCode) :
    n = 0 ∨ (0 < n ∧ n < 2 ^ 52) ∨ (2 ^ 52 ≤ n ∧ n < 2047 * 2 ^ 52) ∨ n = infinityCode := by
  unfold infinityCode at *
  omega

theorem pack_unpack (hn : n ≤ infinityCode) :
    UnpackedFloat.pack Format.binary64 (UnpackedFloat.unpack Format.binary64 (bitsOf s n)) = bitsOf s n := by
  rcases code_cases hn with rfl | ⟨h0, hn⟩ | ⟨h0, hn⟩ | rfl
  · cases s <;> rfl
  · rw [unpack_subnormal s h0 hn, pack_subnormal s h0 hn]
  · rw [unpack_normal s h0 hn, pack_normal s h0 hn]
  · cases s <;> rfl

theorem neg_unpack (hn : n ≤ infinityCode) :
    (UnpackedFloat.unpack Format.binary64 (bitsOf s n)).neg =
      UnpackedFloat.unpack Format.binary64 (bitsOf (-s) n) := by
  rcases code_cases hn with rfl | ⟨h0, hn⟩ | ⟨h0, hn⟩ | rfl
  · cases s <;> rfl
  · rw [unpack_subnormal s h0 hn, unpack_subnormal (-s) h0 hn]
    rfl
  · rw [unpack_normal s h0 hn, unpack_normal (-s) h0 hn]
    rfl
  · cases s <;> rfl

end

def coded (negative : Bool) (n : Nat) : Float := signed negative (Float.ofBits n.toUInt64)

def signOf (negative : Bool) : Sign := if negative then .negative else .positive

theorem toBits_coded (negative : Bool) {n : Nat} (hn : n ≤ infinityCode) :
    (coded negative n).toModel.toBits.toBitVec = bitsOf (signOf negative) n := by
  have hlt : n < 2 ^ 63 := by
    unfold infinityCode at hn
    omega
  have hbits : n.toUInt64.toBitVec = bitsOf .positive n := by
    apply BitVec.eq_of_toNat_eq
    rw [toNat_bitsOf _ hlt]
    simp only [UInt64.toNat_toBitVec, Nat.toUInt64_eq, UInt64.toNat_ofNat']
    rw [Nat.mod_eq_of_lt (by omega)]
    exact (Nat.zero_add n).symm
  have hpositive : (Float.ofBits n.toUInt64).toModel.toBits.toBitVec = bitsOf .positive n := by
    show UnpackedFloat.pack Format.binary64
      (UnpackedFloat.unpack Format.binary64 n.toUInt64.toBitVec) = _
    rw [hbits, pack_unpack _ hn]
  cases negative with
  | false => exact hpositive
  | true =>
    show UnpackedFloat.pack Format.binary64 (UnpackedFloat.unpack Format.binary64
      (Float.ofBits n.toUInt64).toModel.toBits.toBitVec).neg = _
    rw [hpositive, neg_unpack _ hn, pack_unpack _ hn]
    rfl

theorem Float.eq_of_toBitVec {x y : Float} (h : x.toModel.toBits.toBitVec = y.toModel.toBits.toBitVec) :
    x = y := by
  obtain ⟨⟨⟨a⟩, ha⟩⟩ := x
  obtain ⟨⟨⟨b⟩, hb⟩⟩ := y
  cases h
  rfl

theorem toNat_coded (negative : Bool) {n : Nat} (hn : n ≤ infinityCode) :
    (coded negative n).toModel.toBits.toBitVec.toNat = negative.toNat * 2 ^ 63 + n := by
  have hlt : n < 2 ^ 63 := by
    unfold infinityCode at hn
    omega
  rw [toBits_coded _ hn, toNat_bitsOf _ hlt]
  cases negative <;> rfl

theorem toNat_unpackExponent (b : BitVec 64) :
    (unpackExponent b : BitVec Format.binary64.exponentBits).toNat = b.toNat / 2 ^ 52 % 2 ^ 11 := by
  unfold unpackExponent
  rw [BitVec.toNat_cast, BitVec.extractLsb_toNat, Nat.shiftRight_eq_div_pow]
  rfl

theorem toNat_unpackMantissa (b : BitVec 64) :
    (unpackMantissa b : BitVec Format.binary64.mantissaBitsWithoutImplicit).toNat =
      b.toNat % 2 ^ 52 := by
  unfold unpackMantissa
  rw [BitVec.toNat_cast, BitVec.extractLsb_toNat, Nat.shiftRight_eq_div_pow]
  simp

/-- Beyond the code of infinity there is only one number. -/
theorem eq_notANumber {x : Float}
    (h : infinityCode < x.toModel.toBits.toBitVec.toNat % 2 ^ 63) : x = notANumber := by
  have hexponent : (unpackExponent x.toModel.toBits.toBitVec : BitVec Format.binary64.exponentBits) =
      -1#_ := by
    apply BitVec.eq_of_toNat_eq
    rw [toNat_unpackExponent]
    have h1 : (-1#11 : BitVec 11).toNat = 2047 := by decide
    show _ = (-1#11 : BitVec 11).toNat
    rw [h1]
    unfold infinityCode at h
    omega
  have hmantissa : (unpackMantissa x.toModel.toBits.toBitVec :
      BitVec Format.binary64.mantissaBitsWithoutImplicit) ≠ 0#_ := by
    intro h0
    have hz := congrArg BitVec.toNat h0
    rw [toNat_unpackMantissa] at hz
    simp only [BitVec.toNat_ofNat, Nat.zero_mod] at hz
    unfold infinityCode at h
    omega
  apply Float.eq_of_toBitVec
  rw [x.toModel.valid.eq_packedNaN hexponent hmantissa]
  rfl

theorem exists_coded (x : Float) :
    x = notANumber ∨ ∃ negative n, n ≤ infinityCode ∧ x = coded negative n := by
  have hlt := x.toModel.toBits.toBitVec.isLt
  rcases Nat.lt_or_ge infinityCode (x.toModel.toBits.toBitVec.toNat % 2 ^ 63) with hn | hn
  · exact .inl (eq_notANumber hn)
  · refine .inr ⟨decide (2 ^ 63 ≤ x.toModel.toBits.toBitVec.toNat), _, hn, ?_⟩
    apply Float.eq_of_toBitVec
    apply BitVec.eq_of_toNat_eq
    rw [toNat_coded _ hn]
    by_cases hs : 2 ^ 63 ≤ x.toModel.toBits.toBitVec.toNat
    · rw [decide_eq_true hs, Bool.toNat_true]
      omega
    · rw [decide_eq_false hs, Bool.toNat_false]
      omega

section
variable (negative : Bool) {n : Nat}

theorem toNat_toBits_coded (hn : n ≤ infinityCode) :
    (coded negative n).toBits.toNat = negative.toNat * 2 ^ 63 + n := toNat_coded negative hn

@[simp] theorem isNegative_coded (hn : n ≤ infinityCode) : isNegative (coded negative n) = negative := by
  have hbits := toNat_toBits_coded negative hn
  have hlt : n < 2 ^ 63 := by
    unfold infinityCode at hn
    omega
  have hshift : ((coded negative n).toBits >>> 63).toNat = negative.toNat := by
    rw [UInt64.toNat_shiftRight, hbits, Nat.shiftRight_eq_div_pow]
    have h63 : (63 : UInt64).toNat % 64 = 63 := rfl
    rw [h63]
    omega
  unfold isNegative
  rw [Bool.eq_iff_iff, beq_iff_eq, ← UInt64.toNat_inj, hshift]
  cases negative <;> decide

theorem biasedExponent_coded (hn : n ≤ infinityCode) :
    biasedExponent (coded negative n) = n / 2 ^ 52 := by
  have hbits := toNat_toBits_coded negative hn
  unfold biasedExponent
  have h52 : (52 : UInt64).toNat % 64 = 52 := rfl
  have hmask : (0x7ff : UInt64).toNat = 2 ^ 11 - 1 := rfl
  rw [UInt64.toNat_and, UInt64.toNat_shiftRight, hbits, Nat.shiftRight_eq_div_pow, h52, hmask,
    Nat.and_two_pow_sub_one_eq_mod]
  unfold infinityCode at hn
  cases negative
  · rw [Bool.toNat_false]
    omega
  · rw [Bool.toNat_true]
    omega

theorem fraction_coded (hn : n ≤ infinityCode) : fraction (coded negative n) = n % 2 ^ 52 := by
  have hbits := toNat_toBits_coded negative hn
  unfold fraction
  have hmask : (0xfffffffffffff : UInt64).toNat = 2 ^ 52 - 1 := rfl
  rw [UInt64.toNat_and, hbits, hmask, Nat.and_two_pow_sub_one_eq_mod]
  omega

theorem unpack_coded (hn : n ≤ infinityCode) :
    (coded negative n).toModel.unpack =
      UnpackedFloat.unpack Format.binary64 (bitsOf (signOf negative) n) := by
  rw [← toBits_coded negative hn]
  rfl

theorem isFinite_coded (hn : n < infinityCode) : (coded negative n).isFinite = true := by
  rw [isFinite_eq, unpack_coded negative (Nat.le_of_lt hn)]
  rcases code_cases (Nat.le_of_lt hn) with rfl | ⟨h0, hn⟩ | ⟨h0, hn⟩ | rfl
  · cases negative <;> rfl
  · rw [unpack_subnormal _ h0 hn]
    rfl
  · rw [unpack_normal _ h0 hn]
    rfl
  · exact absurd hn (Nat.lt_irrefl _)

theorem isZero_coded (hn : n ≤ infinityCode) : isZero (coded negative n) = decide (n = 0) := by
  unfold isZero
  rw [beq_eq, unpack_zero, unpack_coded negative hn]
  rcases code_cases hn with rfl | ⟨h0, hn⟩ | ⟨h0, hn⟩ | rfl
  · cases negative <;> rfl
  · rw [unpack_subnormal _ h0 hn, decide_eq_false (Nat.ne_of_gt h0)]
    cases negative <;> rfl
  · rw [unpack_normal _ h0 hn, decide_eq_false (by omega)]
    cases negative <;> rfl
  · cases negative <;> rfl

theorem signed_coded : signed negative (coded false n) = coded negative n := rfl

theorem isNaN_eq (x : Float) : x.isNaN = x.toModel.unpack.isNaN := rfl
theorem isInf_eq (x : Float) : x.isInf = x.toModel.unpack.isInf := rfl

theorem status_of_isFinite {x : Float} (h : x.isFinite = true) : x.isNaN = false ∧ x.isInf = false := by
  rw [isFinite_eq] at h
  rw [isNaN_eq, isInf_eq]
  cases hx : x.toModel.unpack with
  | notANumber => rw [hx] at h; cases h
  | infinity s => rw [hx] at h; cases h
  | zero s => exact ⟨rfl, rfl⟩
  | finite s m e hm => exact ⟨rfl, rfl⟩

end

theorem beq_infinity_coded {n : Nat} (hn : n < infinityCode) : (coded false n == infinity) = false := by
  have hfinite := isFinite_coded false hn
  have hunpack : infinity.toModel.unpack = .infinity .positive := by rfl
  rw [isFinite_eq] at hfinite
  rw [beq_eq, hunpack]
  cases hx : (coded false n).toModel.unpack with
  | notANumber => rfl
  | infinity s => rw [hx] at hfinite; cases hfinite
  | zero s => rfl
  | finite s m e hm => cases s <;> rfl

/-- The significand and the exponent that a finite number can have. -/
structure Canonical (m : Nat) (e : Int) : Prop where
  lt : m < 2 ^ 53
  low : -1074 ≤ e
  high : e ≤ 971
  normal : 2 ^ 52 ≤ m ∨ e = -1074

def codeOf (m : Nat) (e : Int) : Nat := (e + 1074).toNat * 2 ^ 52 + m

theorem Canonical.code_lt {m : Nat} {e : Int} (h : Canonical m e) : codeOf m e < infinityCode := by
  obtain ⟨hlt, hlow, hhigh, -⟩ := h
  unfold codeOf infinityCode
  omega

section
variable (negative : Bool) {n : Nat}

theorem significand_coded (hn : n < infinityCode) :
    significand (coded negative n) = if n < 2 ^ 52 then n else 2 ^ 52 + n % 2 ^ 52 := by
  unfold significand
  rw [biasedExponent_coded negative (Nat.le_of_lt hn), fraction_coded negative (Nat.le_of_lt hn)]
  have hhidden : hiddenBit = 2 ^ 52 := rfl
  by_cases h : n < 2 ^ 52
  · rw [if_pos (Nat.div_eq_of_lt h), if_pos h, Nat.mod_eq_of_lt h]
  · rw [if_neg (by omega), if_neg h, hhidden]

theorem exponent_coded (hn : n < infinityCode) :
    exponent (coded negative n) = (max (n / 2 ^ 52) 1 : Nat) - 1075 := by
  unfold exponent
  rw [biasedExponent_coded negative (Nat.le_of_lt hn)]

theorem canonical_coded (hn : n < infinityCode) :
    Canonical (significand (coded negative n)) (exponent (coded negative n)) := by
  rw [significand_coded negative hn, exponent_coded negative hn]
  unfold infinityCode at hn
  by_cases h : n < 2 ^ 52
  · rw [if_pos h]
    constructor
    · omega
    · omega
    · omega
    · right
      omega
  · rw [if_neg h]
    constructor
    · omega
    · omega
    · omega
    · left
      omega

theorem codeOf_coded (hn : n < infinityCode) :
    codeOf (significand (coded negative n)) (exponent (coded negative n)) = n := by
  rw [significand_coded negative hn, exponent_coded negative hn]
  unfold codeOf
  by_cases h : n < 2 ^ 52
  · rw [if_pos h]
    omega
  · rw [if_neg h]
    omega

end

/-- A finite number is put together again from its parts. -/
theorem eq_coded_of_isFinite {x : Float} (h : x.isFinite = true) :
    Canonical (significand x) (exponent x) ∧
      x = coded (isNegative x) (codeOf (significand x) (exponent x)) := by
  obtain rfl | ⟨negative, n, hn, rfl⟩ := exists_coded x
  · exact absurd h (by decide)
  · have hlt : n < infinityCode := by
      apply Nat.lt_of_le_of_ne hn
      rintro rfl
      cases negative <;> exact absurd h (by decide)
    refine ⟨canonical_coded negative hlt, ?_⟩
    rw [isNegative_coded negative hn, codeOf_coded negative hlt]

theorem nan_or_infinite_or_finite (x : Float) :
    x = notANumber ∨ (∃ negative, x = coded negative infinityCode) ∨ x.isFinite = true := by
  obtain rfl | ⟨negative, n, hn, rfl⟩ := exists_coded x
  · exact .inl rfl
  · rcases Nat.lt_or_eq_of_le hn with hlt | rfl
    · exact .inr (.inr (isFinite_coded negative hlt))
    · exact .inr (.inl ⟨negative, rfl⟩)

end ScalarGraph.Binary64
