import ScalarGraph.Binary64

/-! # Random sources

A source answers four kinds of draws and moves on to its next state with each.
The mixing source draws from a counter whose bits it mixes.
-/
namespace ScalarGraph

structure Source (σ : Type) where
  unit : σ → Float × σ
  /-- Between two bounds. -/
  uniform : Float → Float → σ → Float × σ
  between : Nat → Nat → σ → Nat × σ
  position : Nat → σ → Nat × σ
  /-- At least zero and below a bound that need not be whole. -/
  part : Float → σ → Float × σ

/-- A source keeps to the ranges that it is asked for, where these are not empty. -/
structure Source.KeepsRange {σ : Type} (S : Source σ) : Prop where
  between : ∀ low high s, low < high → low ≤ (S.between low high s).1 ∧ (S.between low high s).1 < high
  position : ∀ n s, 0 < n → (S.position n s).1 < n

namespace Mixing

def increment : UInt64 := 0x9e3779b97f4a7c15

def mix (z : UInt64) : UInt64 :=
  let z := (z ^^^ (z >>> 30)) * 0xbf58476d1ce4e5b9
  let z := (z ^^^ (z >>> 27)) * 0x94d049bb133111eb
  z ^^^ (z >>> 31)

def next (s : UInt64) : UInt64 × UInt64 := (mix (s + increment), s + increment)

/-- The upper 53 bits as a fraction. -/
def unit (s : UInt64) : Float × UInt64 :=
  let (z, s) := next s
  (Float.ofNat (z >>> 11).toNat / 9007199254740992.0, s)

def uniform (low high : Float) (s : UInt64) : Float × UInt64 :=
  let (u, s) := unit s
  (low + (high - low) * u, s)

def below (n : Nat) (s : UInt64) : Nat × UInt64 :=
  let (z, s) := next s
  (z.toNat % n, s)

def between (low high : Nat) (s : UInt64) : Nat × UInt64 :=
  let (k, s) := below (high - low) s
  (low + k, s)

def part (bound : Float) (s : UInt64) : Float × UInt64 :=
  let (z, s) := next s
  (Binary64.remainder (Binary64.ofRatio z.toNat 1) bound, s)

def source : Source UInt64 := { unit, uniform, between, position := below, part }

/-- The first state for a seed, which counts modulo `2 ^ 64`. -/
def seeded (seed : Int) : UInt64 := UInt64.ofNat (seed % 18446744073709551616).toNat

end Mixing
end ScalarGraph
