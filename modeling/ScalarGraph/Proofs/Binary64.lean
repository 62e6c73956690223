import ScalarGraph.Proofs.Blocked

/-! # Zeros, infinities and NaN of machine numbers

The product of zero with a finite number is a zero, with an infinity or NaN it is NaN, and NaN stays
NaN under sums and products.
-/
namespace ScalarGraph.Binary64
open Float.Model UnpackedFloat

theorem mul_eq (x y : Float) : x * y =
    .ofModel (pack (UnpackedFloat.mul Format.binary64 x.toModel.unpack y.toModel.unpack)) := rfl
theorem add_eq (x y : Float) : x + y =
    .ofModel (pack (UnpackedFloat.add Format.binary64 x.toModel.unpack y.toModel.unpack)) := rfl

theorem unpack_notANumber : notANumber.toModel.unpack = .notANumber := by rfl
theorem unpack_zero : (0.0 : Float).toModel.unpack = .zero .positive := by rfl
theorem pack_notANumber : Float.ofModel (pack .notANumber) = notANumber := by decide +kernel
theorem unpack_pack_zero (s : Sign) : (pack (.zero s)).unpack = .zero s := by cases s <;> rfl
theorem pack_zero : Float.ofModel (pack (.zero .positive)) = 0.0 := by decide +kernel

theorem nan_mul (x : Float) : notANumber * x = notANumber := by
  rw [mul_eq, unpack_notANumber]
  exact pack_notANumber
theorem nan_add (x : Float) : notANumber + x = notANumber := by
  rw [add_eq, unpack_notANumber]
  exact pack_notANumber
theorem add_nan (x : Float) : x + notANumber = notANumber := by
  rw [add_eq, unpack_notANumber]
  cases x.toModel.unpack <;> exact pack_notANumber
theorem isFinite_eq (x : Float) : x.isFinite = x.toModel.unpack.isFinite := rfl
theorem beq_eq (x y : Float) : (x == y) = x.toModel.unpack.beq y.toModel.unpack := rfl

theorem mul_zero_of_not_finite {x : Float} (h : x.isFinite = false) : x * 0.0 = notANumber := by
  rw [mul_eq, unpack_zero]
  rw [isFinite_eq] at h
  cases hx : x.toModel.unpack with
  | notANumber => exact pack_notANumber
  | infinity s => exact pack_notANumber
  | zero s => rw [hx] at h; cases h
  | finite s m e hm => rw [hx] at h; cases h

theorem zero_add_mul_zero {x : Float} (h : x.isFinite = true) : 0.0 + x * 0.0 = 0.0 := by
  rw [isFinite_eq] at h
  obtain ⟨s, hs⟩ : ∃ s,
      UnpackedFloat.mul Format.binary64 x.toModel.unpack (.zero .positive) = .zero s := by
    cases hx : x.toModel.unpack with
    | notANumber => rw [hx] at h; cases h
    | infinity s => rw [hx] at h; cases h
    | zero s => exact ⟨_, rfl⟩
    | finite s m e hm => exact ⟨_, rfl⟩
  rw [add_eq, mul_eq, unpack_zero, hs, unpack_pack_zero]
  cases s <;> exact pack_zero

theorem isFinite_of_beq_zero {x : Float} (h : (x == 0.0) = true) : x.isFinite = true := by
  rw [beq_eq, unpack_zero] at h
  rw [isFinite_eq]
  cases hx : x.toModel.unpack with
  | notANumber => rw [hx] at h; cases h
  | infinity s => rw [hx] at h; cases s <;> cases h
  | zero s => rfl
  | finite s m e hm => rfl

theorem ieee_elementary : elementary.Ieee notANumber where
  zero_eq := by rfl
  nan_eq := by rfl
  finite_of_eq _ := isFinite_of_beq_zero
  nan_mul := nan_mul
  nan_add := nan_add
  add_nan := add_nan
  zero_add_mul_zero _ := zero_add_mul_zero
  mul_zero _ := mul_zero_of_not_finite

end ScalarGraph.Binary64
