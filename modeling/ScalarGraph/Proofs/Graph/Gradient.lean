import ScalarGraph.Proofs.Graph.Listing
import ScalarGraph.Proofs.Program.Adjoint
import ScalarGraph.Proofs.Program.Gradient
import ScalarGraph.Proofs.Program.Run

/-! # Values and gradients of graphs

The program of a well-formed graph gives at its primary output the value that solves the
equations of the graph's nodes. With exact adjoints the gradient is the derivative by the chain
rule on the graph, whether zero adjoints are passed on or not.
-/
namespace ScalarGraph
variable {α : Type} {g : Graph α} {p : Program α} {C : Calculus α} {xs : Array α} {r : Text}

namespace Program.Compiles

theorem reads (h : p.Compiles g) (hg : g.WellFormed) : p.Reads g.net p.name g.slot where
  topological := h.topological
  maps := h.maps
  inverse _ hi := h.slot_name hg hi

theorem run_eq_map (h : p.Compiles g) (hg : g.WellFormed) (hV : g.net.Evaluates C.rules xs V) :
    p.run C xs = ((p.run C xs).map Outputs.gradient).map fun gs =>
      { primary := g.primary.map V, gradient := gs, secondary := g.secondary.map V } := by
  have hrun := h.topological.run_eq_map (h.maps.evaluates hV) (h.primary_lt hg) (h.secondary_lt hg)
  rwa [← Option.map_map, ← List.map_map, h.map_name_primary hg, h.map_name_secondary hg] at hrun

theorem exists_outputs (h : p.Compiles g) (hg : g.WellFormed) {V : Text → α}
    (hV : g.net.Evaluates C.rules xs V)
    (hinput : ∀ id k sample, g.net id (.input k sample) → k < max g.numInputs.toNat xs.size) :
    ∃ out, p.run C xs = some out ∧ out.primary = g.primary.map V ∧
      out.secondary = g.secondary.map V ∧ out.gradient.size = max g.numInputs.toNat xs.size := by
  have hlength : p.gradientLength xs.size = max g.numInputs.toNat xs.size := by
    rw [Program.gradientLength, h.numInputs]
  obtain ⟨out, hrun, hp, hs, hsize⟩ := h.topological.exists_outputs (h.maps.evaluates hV)
    (h.primary_lt hg) (h.secondary_lt hg) fun i n hn k hk => by
      obtain ⟨sample, rfl⟩ := Node.eq_input_of_position? hk
      rw [hlength]
      exact hinput _ k sample (h.maps hn)
  refine ⟨out, hrun, ?_, ?_, hsize.trans hlength⟩
  · rw [hp, ← Option.map_map, h.map_name_primary hg]
  · rw [hs, ← List.map_map, h.map_name_secondary hg]

theorem exists_run (h : p.Compiles g) (hg : g.WellFormed) (hr : g.primary = some r)
    {V : Text → α} (hV : g.net.Evaluates C.rules xs V)
    (hinput : ∀ id k sample, g.net id (.input k sample) → k < max g.numInputs.toNat xs.size) :
    ∃ out, p.run C xs = some out ∧ out.primary = some (V r) ∧ out.secondary = g.secondary.map V ∧
      out.gradient.size = max g.numInputs.toNat xs.size := by
  have hout := h.exists_outputs hg hV hinput
  rw [hr, Option.map_some] at hout
  exact hout

/-- With exact adjoints the gradient solves the equations of the chain rule. -/
theorem gradient_eq [CommRing α] (h : p.Compiles g) (hg : g.WellFormed) (hC : C.adjoints.Exact)
    (hr : g.primary = some r) {V D : Text → α} (hV : g.net.Evaluates C.rules xs V) {i : Nat}
    (hD : g.net.ChainRule C V i D) {out : Outputs α} (hrun : p.run C xs = some out)
    (hi : i < max g.numInputs.toNat xs.size) : out.gradient[i]? = some (D r) := by
  have hs : p.primary = some (g.slot r) := by rw [h.primary, hr, Option.map_some]
  have hlt := h.slot_lt (hg.primary_mem r hr)
  rw [h.topological.run_eq (h.maps.evaluates hV) hs hlt (h.secondary_lt hg)] at hrun
  obtain ⟨sweep, hsweep, rfl⟩ := Option.map_eq_some_iff.mp hrun
  have hlength : i < p.gradientLength xs.size := by
    rw [Program.gradientLength, h.numInputs]
    exact hi
  have hgradient := h.topological.gradient_eq hC (h.maps.chainRule hD) hs hlt hlength hsweep
  rwa [Function.comp_apply, h.name_slot (hg.primary_mem r hr)] at hgradient

end Program.Compiles

namespace Graph

/-- The reverse sweep is the chain rule on every graph that is assembled: under any settings the
program runs, and each entry of its gradient is the derivative of the primary output, which is zero
where no input that feeds it has that position. -/
theorem gradient_chainRule [CommRing α] [Written α] (hC : C.adjoints.Exact) (hg : g.Assembled)
    (hr : g.primary = some r) (settings : Settings)
    (hinput : ∀ id k sample, g.net id (.input k sample) → k < max g.numInputs.toNat xs.size) :
    ∃ p out, g.compile? settings = some p ∧ p.run C xs = some out ∧
      out.gradient.size = max g.numInputs.toNat xs.size ∧ (∃ V, g.net.Evaluates C.rules xs V) ∧
      ∀ V i, g.net.Evaluates C.rules xs V → i < max g.numInputs.toNat xs.size →
        (∃ D, g.net.ChainRule C V i D) ∧
        (∀ D, g.net.ChainRule C V i D → out.gradient[i]? = some (D r)) ∧
        ((∀ id k sample, g.net id (.input k sample) → g.net.Needs r id → k ≠ i) →
          out.gradient[i]? = some 0) := by
  have hwf := hg.wellFormed
  obtain ⟨p, hcompile, hp, -⟩ := hwf.exists_compile settings
  obtain ⟨W, hW⟩ := hwf.ranked.exists_evaluates C.rules xs
  obtain ⟨out, hrun, -, -, hsize⟩ := hp.exists_run hwf hr hW hinput
  refine ⟨p, out, hcompile, hrun, hsize, ⟨W, hW⟩, fun V i hV hi => ?_⟩
  obtain ⟨D, hD⟩ := hwf.ranked.exists_chainRule C V i
  refine ⟨⟨D, hD⟩, fun D' hD' => hp.gradient_eq hwf hC hr hV hD' hrun hi, fun hfree => ?_⟩
  obtain ⟨n, hn⟩ := hwf.exists_node (hwf.primary_mem r hr)
  have hzero : D r = 0 := by
    refine hD.eq_zero hwf.ranked hwf.exists_operand (fun id m hm hneeds hpos => ?_) r n hn .refl
    obtain ⟨sample, rfl⟩ := Node.eq_input_of_position? hpos
    exact hfree id i sample hm hneeds rfl
  rw [hp.gradient_eq hwf hC hr hV hD hrun hi, hzero]

instance writtenInt : Written Int := ⟨Text.ofInt⟩

def polynomials : Calculus Int where
  rules :=
    { unary := fun o x => match o with
        | .neg => -x
        | .squared => x * x
        | _ => 0
      binary := fun o x y => match o with
        | .add => x + y
        | .sub => x - y
        | .mul => x * y
        | _ => 0
      nary := fun o vs => match o with
        | .sum => vs.sum
        | _ => 0
      truthy := fun c => c != 0 }
  partials :=
    { unary := fun o x _ => match o with
        | .neg => -1
        | .squared => 2 * x
        | _ => 0
      binary := fun o x y _ => match o with
        | .add => (1, 1)
        | .sub => (1, -1)
        | .mul => (y, x)
        | _ => (0, 0)
      nary := fun o vs _ => match o with
        | .sum => vs.map fun _ => 1
        | _ => vs.map fun _ => 0 }
  adjoints := { zero := 0, one := 1, add := (· + ·), mul := (· * ·), isZero := (· == 0) }
  isFinite := fun _ => true

theorem exact_polynomials : polynomials.adjoints.Exact :=
  ⟨rfl, rfl, fun _ _ => rfl, fun _ _ => rfl, fun a h => by simpa [polynomials] using h⟩

def squarePlusSelf : List (Text × Node Int Text) :=
  [("x", .input 0 3), ("s", .binary .mul "x" "x"), ("u", .unary .neg "s"),
    ("p", .binary .add "s" "x")]

theorem listed_squarePlusSelf :
    Draft.Listed squarePlusSelf ((squarePlusSelf.map (·.1)).idxOf ·) := by
  constructor <;> decide

theorem gradient_chainRule_squarePlusSelf : ∃ g : Graph Int, g.nodes = squarePlusSelf ∧
    ∃ p out, g.compile? {} = some p ∧ p.run polynomials #[5] = some out ∧ out.gradient[0]? = some 11 := by
  obtain ⟨g, hassembled, hnodes, hprimary, -⟩ : ∃ g : Graph Int, g.Assembled ∧
      g.nodes = squarePlusSelf ∧ g.primary = some ("p" : Text) ∧ g.secondary = [] ∧ g.numInputs = 1 :=
    listed_squarePlusSelf.exists_graph (by decide) (by decide) 1
  have hmem : ∀ {id n}, (id, n) ∈ squarePlusSelf → g.net id n := fun h => by
    rw [net, hnodes]
    exact h
  have hinput : ∀ id k sample, g.net id (.input k sample) →
      k < max g.numInputs.toNat (#[5] : Array Int).size := by
    intro id k sample h
    simp only [net, hnodes, squarePlusSelf, List.mem_cons, Prod.mk.injEq, Node.input.injEq,
      reduceCtorEq, and_false, List.not_mem_nil, or_false] at h
    simp [h.2.1]
  obtain ⟨p, out, hcompile, hrun, -, ⟨V, hV⟩, hgradient⟩ :=
    gradient_chainRule exact_polynomials hassembled hprimary {} hinput
  obtain ⟨⟨D, hD⟩, heq, -⟩ := hgradient V 0 hV (by simp)
  have hvalue : V "x" = 5 := hV _ _ (hmem (n := .input 0 3) (by decide))
  have hx : D "x" = 1 := hD _ _ (hmem (n := .input 0 3) (by decide))
  have hs : D "s" = 10 := by
    rw [hD _ _ (hmem (n := .binary .mul "x" "x") (by decide))]
    simp [Node.map, Node.operands, Node.derivative, Node.partials, polynomials, hvalue, hx]
  have hp : D "p" = 11 := by
    rw [hD _ _ (hmem (n := .binary .add "s" "x") (by decide))]
    simp [Node.map, Node.operands, Node.derivative, Node.partials, polynomials, hx, hs]
  exact ⟨g, hnodes, p, out, hcompile, hrun, by rw [heq D hD, hp]⟩

end Graph
end ScalarGraph
