import ScalarGraph.Proofs.Program.Reverse

/-! # Runs of programs

Where every input has an entry in the gradient a program runs, and gives the values of its
outputs at the solution of its equations.
-/
namespace ScalarGraph.Program
variable {α : Type} {p : Program α} {C : Calculus α} {xs : Array α} {V : Nat → α}

theorem mapM_getElem?_valuesBelow {is : List Nat} {n : Nat} (h : ∀ i ∈ is, i < n) :
    is.mapM (fun i => (valuesBelow V n)[i]?) = some (is.map V) :=
  mapM_list_eq fun i hi => getElem?_valuesBelow (h i hi)

/-- A program with a primary output gives the value there, and the gradient of the sweep. -/
theorem Topological.run_eq (hp : p.Topological) (hV : p.net.Evaluates C.rules xs V)
    {r : Nat} (hr : p.primary = some r) (hlt : r < p.code.size)
    (hsecondary : ∀ i ∈ p.secondary, i < p.code.size) :
    p.run C xs =
      (p.reverse C (valuesBelow V p.code.size) (p.gradientLength xs.size) r).map fun s =>
        { primary := some (V r), gradient := s.gradient, secondary := p.secondary.map V } := by
  simp only [run, forward_eq hp hV, Option.bind_eq_bind, Option.bind_some, outputs, hr,
    mapM_getElem?_valuesBelow hsecondary]
  cases p.reverse C (valuesBelow V p.code.size) (p.gradientLength xs.size) r with
  | none => rfl
  | some s => simp [getElem?_valuesBelow hlt]

theorem Topological.run_eq_of_none (hp : p.Topological) (hV : p.net.Evaluates C.rules xs V)
    (hr : p.primary = none) (hsecondary : ∀ i ∈ p.secondary, i < p.code.size) :
    p.run C xs = some
      { primary := none, gradient := Array.replicate (p.gradientLength xs.size) C.adjoints.zero,
        secondary := p.secondary.map V } := by
  simp only [run, forward_eq hp hV, Option.bind_eq_bind, Option.bind_some, outputs, hr,
    mapM_getElem?_valuesBelow hsecondary]
  rfl

theorem Topological.exists_run (hp : p.Topological) (hV : p.net.Evaluates C.rules xs V)
    {r : Nat} (hr : p.primary = some r) (hlt : r < p.code.size)
    (hsecondary : ∀ i ∈ p.secondary, i < p.code.size)
    (hinput : ∀ i n, p.net i n → ∀ k ∈ n.position?, k < p.gradientLength xs.size) :
    ∃ s, p.reverse C (valuesBelow V p.code.size) (p.gradientLength xs.size) r = some s ∧
      s.gradient.size = p.gradientLength xs.size ∧
      p.run C xs = some { primary := some (V r), gradient := s.gradient,
                          secondary := p.secondary.map V } := by
  have hl := hp.descends_gradientPath hr hlt
  obtain ⟨s, hs⟩ := hp.exists_sweep (C := C) (V := V) hl hinput (p.fits_seed C.adjoints _ r)
  have hreverse : p.reverse C (valuesBelow V p.code.size) (p.gradientLength xs.size) r = some s := hs
  refine ⟨s, hs, (hp.fits_of_reverse hr hlt hreverse).gradient, ?_⟩
  rw [hp.run_eq hV hr hlt hsecondary, hreverse]
  rfl

/-- Where every input has an entry in the gradient a program runs, and gives the values of its
outputs. -/
theorem Topological.exists_outputs (hp : p.Topological) (hV : p.net.Evaluates C.rules xs V)
    (hprimary : ∀ r ∈ p.primary, r < p.code.size) (hsecondary : ∀ i ∈ p.secondary, i < p.code.size)
    (hinput : ∀ i n, p.net i n → ∀ k ∈ n.position?, k < p.gradientLength xs.size) :
    ∃ out, p.run C xs = some out ∧ out.primary = p.primary.map V ∧
      out.secondary = p.secondary.map V ∧ out.gradient.size = p.gradientLength xs.size := by
  cases hr : p.primary with
  | none => exact ⟨_, hp.run_eq_of_none hV hr hsecondary, rfl, rfl, Array.size_replicate⟩
  | some r =>
    obtain ⟨s, -, hsize, hrun⟩ := hp.exists_run hV hr (hprimary r hr) hsecondary hinput
    exact ⟨_, hrun, rfl, rfl, hsize⟩

theorem Topological.run_eq_map (hp : p.Topological) (hV : p.net.Evaluates C.rules xs V)
    (hprimary : ∀ r ∈ p.primary, r < p.code.size) (hsecondary : ∀ i ∈ p.secondary, i < p.code.size) :
    p.run C xs = ((p.run C xs).map Outputs.gradient).map fun gs =>
      { primary := p.primary.map V, gradient := gs, secondary := p.secondary.map V } := by
  cases hr : p.primary with
  | none =>
    rw [hp.run_eq_of_none hV hr hsecondary]
    rfl
  | some r =>
    rw [hp.run_eq hV hr (hprimary r hr) hsecondary, Option.map_map, Option.map_map]
    rfl

end ScalarGraph.Program
