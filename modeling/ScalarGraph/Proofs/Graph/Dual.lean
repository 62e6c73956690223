import ScalarGraph.Proofs.Dual
import ScalarGraph.Proofs.Graph.Conversion
import ScalarGraph.Proofs.Graph.Gradient
import ScalarGraph.Proofs.Term.Program

/-! # Graphs over dual numbers

A graph of algebraic operators is evaluated over dual numbers, where one input is
moved by the infinitesimal. The primary output then is its value and, as infinitesimal part, the
entry of the gradient for that input.
-/
namespace ScalarGraph
open TrivSqZeroExt
variable {K ι : Type} [Field K]

/-- The same graph over dual numbers, where its own numbers have no infinitesimal part. -/
def Graph.dual (g : Graph K) : Graph (DualNumber K) := Id.run (g.convertM fun x => pure (inl x))

theorem Node.operands_dual (n : Node K ι) : n.dual.operands = n.operands := n.operands_embed inl

namespace Graph
variable {g : Graph K}

theorem dual_eq (g : Graph K) :
    g.dual = { g with nodes := g.nodes.map fun p => (p.1, p.2.dual) } := g.embed_eq inl

theorem net_dual {id : Text} {n : Node K Text} (hn : g.net id n) : g.dual.net id n.dual := net_embed hn

theorem WellFormed.dual (hg : g.WellFormed) : g.dual.WellFormed := hg.embed inl

end Graph

variable [LinearOrder K] [IsStrictOrderedRing K] {rest : Elementary K}
  {ties : DualNumber K → DualNumber K → Bool} {rest' : Elementary (DualNumber K)} {xs : Array K} {i : Nat}

/-- Where the nodes that are needed are algebraic and regular, their values over dual numbers are
the values with the derivatives, by induction along the operands. -/
theorem Net.Evaluates.eq_toDual {N : Net K ι} {M : Net (DualNumber K) ι} {rank : ι → Nat}
    (hN : N.Ranked rank) (hclosed : ∀ {j n}, N j n → ∀ c ∈ n.operands, ∃ m, N c m)
    (hNM : ∀ {j n}, N j n → M j n.dual) {V D : ι → K} {W : ι → DualNumber K}
    (hV : N.Evaluates rest.ofField.rules xs V) (hD : N.ChainRule rest.ofField.calculus V i D)
    (hW : M.Evaluates (rest.ofField.dual ties rest').rules (perturbed xs i) W) {r : ι}
    (hneeded : ∀ j n, N j n → N.Needs r j → n.isAlgebraic = true ∧
      (∀ k ∈ n.position?, k < xs.size) ∧ n.Regular rest.guard V (V j)) :
    ∀ j n, N j n → N.Needs r j → W j = toDual (V j, D j) := by
  intro j n hn hj
  induction hrank : rank j using Nat.strongRecOn generalizing j n with
  | _ _ ih =>
    subst hrank
    obtain ⟨halg, hinput, hreg⟩ := hneeded j n hn hj
    have hoperands : ∀ c ∈ n.dual.operands, W c = toDual (V c, D c) := by
      intro c hc
      rw [n.operands_dual] at hc
      obtain ⟨m, hm⟩ := hclosed hn c hc
      exact ih (rank c) (hN.operand_lt hn c hc) c m hm (hj.tail ⟨n, hn, hc⟩) rfl
    have htangent : (V j, D j) =
        (n.map fun j => (V j, D j)).tangent rest.ofField.calculus xs i := hD.solves_tangent hV j n hn
    rw [hV j n hn] at hreg
    rw [hW j n.dual (hNM hn), Node.map_congr hoperands,
      Node.value_dual rest ties rest' i halg hinput V D hreg, htangent]

namespace Graph
variable {g : Graph K} {r : Text}

/-- The gradient is the derivative in dual numbers. For an assembled graph of algebraic operators and
a vector that is long enough for its inputs, the programs of the graph over the field and over
dual numbers run under any settings. Where the nodes that the primary output needs do not divide by
zero or take the absolute value of zero, and attain maxima and minima at one operand alone,
moving input `i` by the infinitesimal moves the primary output by entry `i` of the gradient, however
the dual numbers decide ties. -/
theorem gradient_dual [Written K] (hg : g.Assembled) (hr : g.primary = some r)
    (halg : ∀ id n, g.net id n → n.isAlgebraic = true)
    (hinput : ∀ id k sample, g.net id (.input k sample) → k < xs.size) (settings : Settings)
    (rest : Elementary K) (ties : DualNumber K → DualNumber K → Bool)
    (rest' : Elementary (DualNumber K)) :
    ∃ p q out, g.compile? settings = some p ∧ g.dual.compile? settings = some q ∧
      p.run rest.ofField.calculus xs = some out ∧
      out.gradient.size = max g.numInputs.toNat xs.size ∧
      (∃ V, g.net.Evaluates rest.ofField.rules xs V) ∧
      ∀ V, g.net.Evaluates rest.ofField.rules xs V →
        (∀ id n, g.net id n → g.net.Needs r id → n.Regular rest.guard V (V id)) →
        out.primary = some (V r) ∧
        ∀ i d, out.gradient[i]? = some d → ∃ out',
          q.run (rest.ofField.dual ties rest').calculus (perturbed xs i) = some out' ∧
          out'.primary = some (inl (V r) + inr d) := by
  have hwf := hg.wellFormed
  obtain ⟨p, hcompile, hp, -⟩ := hwf.exists_compile settings
  obtain ⟨q, hcompile', hq, -⟩ := hwf.dual.exists_compile settings
  have hrun : ∀ V, g.net.Evaluates rest.ofField.rules xs V → ∃ out,
      p.run rest.ofField.calculus xs = some out ∧ out.primary = some (V r) ∧
        out.gradient.size = max g.numInputs.toNat xs.size := fun V hV => by
    obtain ⟨out, hrun, hprimary, -, hsize⟩ := hp.exists_run (C := rest.ofField.calculus) hwf hr hV
      fun id k sample hn => lt_max_of_lt_right (hinput id k sample hn)
    exact ⟨out, hrun, hprimary, hsize⟩
  obtain ⟨U, hU⟩ := hwf.ranked.exists_evaluates rest.ofField.rules xs
  obtain ⟨out, hout, -, hsize⟩ := hrun U hU
  refine ⟨p, q, out, hcompile, hcompile', hout, hsize, ⟨U, hU⟩, fun V hV hreg => ?_⟩
  obtain ⟨out', hout', hprimary, -⟩ := hrun V hV
  cases hout.symm.trans hout'
  refine ⟨hprimary, fun i d hd => ?_⟩
  have hi : i < max g.numInputs.toNat xs.size := hsize ▸ (Array.getElem?_eq_some_iff.mp hd).1
  obtain ⟨D, hD⟩ := hwf.ranked.exists_chainRule rest.ofField.calculus V i
  obtain ⟨W, hW⟩ := hwf.dual.ranked.exists_evaluates (rest.ofField.dual ties rest').rules (perturbed xs i)
  have hr' : g.dual.primary = some r := by rw [dual_eq]; exact hr
  obtain ⟨out', hrun', hprimary', -⟩ := hq.exists_run (C := (rest.ofField.dual ties rest').calculus)
    hwf.dual hr' hW fun id k sample hn => by
      obtain ⟨s, hn⟩ := exists_input_of_embed hn
      have hlt := hinput id k s hn
      simp only [perturbed, Array.size_mapIdx]
      omega
  obtain ⟨n, hn⟩ := hwf.exists_node (hwf.primary_mem r hr)
  have hvalue : W r = toDual (V r, D r) :=
    hV.eq_toDual hwf.ranked hwf.exists_operand net_dual hD hW (r := r)
      (fun j n hn hj => ⟨halg j n hn, fun k hk => by
        obtain ⟨s, rfl⟩ := Node.eq_input_of_position? hk
        exact hinput j k s hn, hreg j n hn hj⟩) r n hn .refl
  have hgradient := hp.gradient_eq hwf (Elementary.exact_ofField rest) hr hV hD hout hi
  refine ⟨out', hrun', ?_⟩
  rw [hprimary', hvalue, Option.some.inj (hd.symm.trans hgradient)]
  rfl

def greaterQuotient : List (Text × Node ℚ Text) :=
  [("x", .input 0 1), ("y", .input 1 1), ("q", .binary .div "x" "y"), ("p", .nary .max ["x", "q"])]

theorem listed_greaterQuotient :
    Draft.Listed greaterQuotient ((greaterQuotient.map (·.1)).idxOf ·) := by
  constructor <;> decide

theorem gradient_dual_greaterQuotient : ∃ g : Graph ℚ, g.nodes = greaterQuotient ∧
    ∃ p q out d out', g.compile? {} = some p ∧ g.dual.compile? {} = some q ∧
      p.run (Elementary.ofField default).calculus #[2, 1/2] = some out ∧ out.primary = some 4 ∧
      out.gradient[1]? = some d ∧
      q.run ((Elementary.ofField default).dual (fun _ _ => true) default).calculus
        (perturbed #[2, 1/2] 1) = some out' ∧ out'.primary = some (inl 4 + inr d) := by
  obtain ⟨g, hassembled, hnodes, hprimary, -⟩ : ∃ g : Graph ℚ, g.Assembled ∧
      g.nodes = greaterQuotient ∧ g.primary = some ("p" : Text) ∧ g.secondary = [] ∧ g.numInputs = 2 :=
    listed_greaterQuotient.exists_graph (by decide) (by decide) 2
  have hmem : ∀ {id n}, (id, n) ∈ greaterQuotient → g.net id n := fun h => by
    rw [net, hnodes]
    exact h
  have hof : ∀ {id n}, g.net id n → (id, n) ∈ greaterQuotient := fun h => by
    rw [net, hnodes] at h
    exact h
  have halg : ∀ id n, g.net id n → n.isAlgebraic = true := fun id n hn =>
    (by decide : ∀ a ∈ greaterQuotient, a.2.isAlgebraic = true) _ (hof hn)
  have hinput : ∀ id k sample, g.net id (.input k sample) → k < (#[2, 1/2] : Array ℚ).size :=
    fun id k sample hn => (by decide : ∀ a ∈ greaterQuotient, ∀ k ∈ a.2.position?, k < 2) _ (hof hn) k rfl
  obtain ⟨p, q, out, hcompile, hcompile', hrun, hsize, ⟨V, hV⟩, hdual⟩ :=
    gradient_dual hassembled hprimary halg hinput {} default (fun _ _ => true) default
  have hx : V "x" = 2 := hV _ _ (hmem (n := .input 0 1) (by decide))
  have hy : V "y" = 1/2 := hV _ _ (hmem (n := .input 1 1) (by decide))
  have hq : V "q" = 4 := by
    have hquotient : V "q" = V "x" / (V "y" + 0) := hV _ _ (hmem (n := .binary .div "x" "y") (by decide))
    rw [hquotient, hx, hy]
    norm_num
  have hp : V "p" = 4 := by
    have hgreater : V "p" = max (V "x") (V "q") := hV _ _ (hmem (n := .nary .max ["x", "q"]) (by decide))
    rw [hgreater, hx, hq]
    norm_num
  have hregular : ∀ id n, g.net id n → g.net.Needs "p" id →
      n.Regular (default : Elementary ℚ).guard V (V id) := by
    rintro id n hn -
    have hlisted := hof hn
    simp only [greaterQuotient, List.mem_cons, Prod.mk.injEq, List.not_mem_nil, or_false] at hlisted
    rcases hlisted with ⟨rfl, rfl⟩ | ⟨rfl, rfl⟩ | ⟨rfl, rfl⟩ | ⟨rfl, rfl⟩
    · trivial
    · trivial
    · show V "y" + 0 ≠ 0
      rw [hy]
      norm_num
    · refine ⟨"q", ⟨by decide, hq.trans hp.symm⟩, ?_⟩
      rintro c ⟨hc, hcp⟩
      rcases List.mem_cons.mp hc with rfl | hc
      · rw [hx, hp] at hcp
        norm_num at hcp
      · exact List.mem_singleton.mp hc
  obtain ⟨hvalue, hmoved⟩ := hdual V hV hregular
  obtain ⟨d, hd⟩ : ∃ d, out.gradient[1]? = some d :=
    ⟨_, Array.getElem?_eq_getElem (by simp [hsize])⟩
  obtain ⟨out', hrun', hprimary'⟩ := hmoved 1 d hd
  rw [hp] at hvalue hprimary'
  exact ⟨g, hnodes, p, q, out, d, out', hcompile, hcompile', hrun, hvalue, hd, hrun', hprimary'⟩

end Graph
end ScalarGraph
