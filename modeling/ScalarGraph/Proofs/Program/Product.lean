import ScalarGraph.Proofs.Graph.Finite

/-! # Programs of products

A program that multiplies the input at position 0 with itself has the value and the gradient of a power.
The input is shared among all factors, so its adjoint is a sum of what these pass on. Since all values are
finite, the sweep is that of the same program over the rational numbers, where it is the chain rule.
-/
namespace ScalarGraph
open Extended
variable {α β : Type} {E : Elementary ℚ} {rest : Elementary Extended}

def Extended.standard : Extended → ℚ
  | finite x => x
  | _ => 0

namespace Program

def embed (f : β → α) (p : Program β) : Program α := { p with code := p.code.map (Node.embed f) }

theorem of_net_embed {f : β → α} {p : Program β} {i : Nat} {n : Node α Nat} (hn : (p.embed f).net i n) :
    ∃ m, p.net i m ∧ m.embed f = n := by
  rw [net, embed, Array.getElem?_map] at hn
  exact Option.map_eq_some_iff.mp hn

/-- Every slot holds the input at position 0 or a product, where `f` counts the factors without the
first. -/
def Multiplies (p : Program α) (f : Nat → ℕ) : Prop :=
  ∀ i n, p.net i n → (f i = 0 ∧ ∃ s, n = .input 0 s) ∨
    ∃ a b, n = .binary .mul a b ∧ f i = f a + f b + 1

namespace Multiplies
variable {p : Program Extended} {f : Nat → ℕ} {x : ℚ}

theorem evaluates (hf : p.Multiplies f) {ys : Array Extended} (hx : ys[0]? = some (finite x)) :
    p.net.Evaluates (E.extended rest).rules ys (finite ∘ fun i => x ^ (f i + 1)) := by
  intro i n hn
  rcases hf i n hn with ⟨hi, s, rfl⟩ | ⟨a, b, rfl, hi⟩
  · show finite (x ^ (f i + 1)) = (ys[0]?).getD s
    rw [hx, hi, zero_add, pow_one, Option.getD_some]
  · show finite (x ^ (f i + 1)) = finite (x ^ (f a + 1) * x ^ (f b + 1))
    rw [hi, ← pow_add]
    congr 2
    omega

theorem embed (hf : p.Multiplies f) : (p.embed standard).Multiplies f := by
  intro i n hn
  obtain ⟨m, hm, rfl⟩ := of_net_embed hn
  rcases hf i m hm with ⟨hi, s, rfl⟩ | ⟨a, b, rfl, hi⟩
  · exact .inl ⟨hi, _, rfl⟩
  · exact .inr ⟨a, b, rfl, hi⟩

/-- The derivative of a power, by the rule for products. -/
theorem chainRule {q : Program ℚ} (hf : q.Multiplies f) (i : Nat) :
    q.net.ChainRule E.ofField.calculus (fun j => x ^ (f j + 1)) i
      fun j => if i = 0 then (f j + 1) * x ^ f j else 0 := by
  intro j n hn
  rcases hf j n hn with ⟨hj, s, rfl⟩ | ⟨a, b, rfl, hj⟩
  · show _ = if 0 = i then (1 : ℚ) else 0
    simp [hj, eq_comm]
  · show _ = (List.zipWith (· * ·) [x ^ (f b + 1), x ^ (f a + 1)] [_, _]).sum
    simp only [hj, List.zipWith_cons_cons, List.zipWith_nil_left, List.sum_cons, List.sum_nil]
    split
    · push_cast
      ring
    · ring

theorem over_embed (hf : p.Multiplies f) : (p.embed standard).Over finite E.ofField.calculus
    (E.extended rest).calculus (fun j => x ^ (f j + 1)) p where
  size := (Array.size_map ..).symm
  primary := rfl
  settings := rfl
  node i n hn := by
    obtain ⟨m, hm, rfl⟩ := of_net_embed hn
    refine ⟨m, hm, (m.operands_embed _).symm, (m.position?_embed _).symm, fun d => ?_⟩
    rcases hf i m hm with ⟨-, s, rfl⟩ | ⟨a, b, rfl, -⟩ <;> rfl

/-- The adjoints of all factors add up to the derivative of the power. -/
theorem gradient_eq (hf : p.Multiplies f) (hp : p.Topological) {r : Nat} (hr : p.primary = some r)
    (hlt : r < p.code.size) (hsecondary : ∀ i ∈ p.secondary, i < p.code.size) {ys : Array Extended}
    (hx : ys[0]? = some (finite x)) {out : Outputs Extended}
    (hrun : p.run (E.extended rest).calculus ys = some out) {i : Nat} {d : Extended}
    (hd : out.gradient[i]? = some d) :
    d = if i = 0 then finite ((f r + 1) * x ^ f r) else finite 0 := by
  have hover : (p.embed standard).Over finite E.ofField.calculus (E.extended rest).calculus
    (fun j => x ^ (f j + 1)) p := hf.over_embed
  have hq : (p.embed standard).Topological := by
    intro j n hn c hc
    obtain ⟨m, hm, hoperands, -⟩ := hover.node j n hn
    exact hp hm c (hoperands ▸ hc)
  have hltq : r < (p.embed standard).code.size := hover.size ▸ hlt
  rw [hp.run_eq (hf.evaluates hx) hr hlt hsecondary,
    hover.reverse_map (embeds_finite E rest) hq hr hltq] at hrun
  obtain ⟨_, hsweep, rfl⟩ := Option.map_eq_some_iff.mp hrun
  obtain ⟨s, hs, rfl⟩ := Option.map_eq_some_iff.mp hsweep
  obtain ⟨y, hy, rfl⟩ := Option.map_eq_some_iff.mp ((Array.getElem?_map ..).symm.trans hd)
  have hi : i < p.gradientLength ys.size := by
    rw [← (hq.fits_of_reverse hr hltq hs).gradient]
    exact (Array.getElem?_eq_some_iff.mp hy).1
  have hentry := hq.gradient_eq E.exact_ofField (hf.embed.chainRule i) hr hltq hi hs
  rw [Option.some.inj (hy.symm.trans hentry), apply_ite finite]

end Multiplies
end Program
end ScalarGraph
