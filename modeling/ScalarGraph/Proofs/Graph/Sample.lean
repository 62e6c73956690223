import ScalarGraph.Graph.Sample
import ScalarGraph.Proofs.Graph.Evaluation
import ScalarGraph.Proofs.Program.Padding

/-! # Graphs at their sample points

A graph has a sample point when its input vector has an entry for every input. With a longer vector
the sample point is padded with zeros, and the graph has the same outputs and values there, with a
gradient that is padded with zeros as well.
-/
namespace ScalarGraph

section
variable {β : Type} {read : β → Except Fault Float}

theorem setSample_append {n : Node β Text} {xs ys : Array Float} (h : setSample read xs n = .ok ys)
    (zs : Array Float) : setSample read (xs ++ zs) n = .ok (ys ++ zs) := by
  cases n with
  | input i s =>
    obtain ⟨x, hx, h⟩ := bind_eq_ok.mp h
    split at h
    · next hi =>
      cases h
      have hi' : i < (xs ++ zs).size := by
        rw [Array.size_append]
        omega
      refine bind_eq_ok.mpr ⟨x, hx, ?_⟩
      rw [if_pos hi', Array.setIfInBounds_append_left hi]
      rfl
    · cases h
  | _ => cases h; rfl

theorem foldlM_setSample_append {nodes : List (Text × Node β Text)} {xs ys : Array Float}
    (h : nodes.foldlM (fun xs p => setSample read xs p.2) xs = .ok ys) (zs : Array Float) :
    nodes.foldlM (fun xs p => setSample read xs p.2) (xs ++ zs) = .ok (ys ++ zs) := by
  induction nodes generalizing xs with
  | nil => cases h; rfl
  | cons p nodes ih =>
    rw [List.foldlM_cons] at h ⊢
    obtain ⟨us, hus, h⟩ := bind_eq_ok.mp h
    exact bind_eq_ok.mpr ⟨_, setSample_append hus zs, ih h⟩

theorem exists_foldlM_setSample {nodes : List (Text × Node Float Text)} {xs : Array Float}
    (h : ∀ p ∈ nodes, ∀ k ∈ p.2.position?, k < xs.size) :
    ∃ ys, nodes.foldlM (fun xs p => setSample .ok xs p.2) xs = .ok ys ∧ ys.size = xs.size := by
  induction nodes generalizing xs with
  | nil => exact ⟨xs, rfl, rfl⟩
  | cons p nodes ih =>
    obtain ⟨us, hus, hsize⟩ : ∃ us, setSample .ok xs p.2 = .ok us ∧ us.size = xs.size := by
      have hp := h p List.mem_cons_self
      rcases p with ⟨id, n⟩
      cases n with
      | input i s =>
        have hi : i < xs.size := hp i rfl
        refine ⟨xs.setIfInBounds i s, ?_, Array.size_setIfInBounds⟩
        show (if i < xs.size then _ else _) = _
        rw [if_pos hi]
        rfl
      | _ => exact ⟨xs, rfl, rfl⟩
    obtain ⟨ys, hys, hsize'⟩ := ih fun q hq k hk => by
      rw [hsize]
      exact h q (List.mem_cons_of_mem _ hq) k hk
    refine ⟨ys, ?_, hsize'.trans hsize⟩
    rw [List.foldlM_cons]
    exact bind_eq_ok.mpr ⟨us, hus, hys⟩

namespace Graph

theorem samplePoint_eq_ok {g : Graph β} {xs : Array Float} : g.samplePoint read = .ok xs ↔
    0 ≤ g.numInputs ∧ g.numInputs.toNat < Program.lengthLimit ∧
      g.nodes.foldlM (fun xs p => setSample read xs p.2) (Array.replicate g.numInputs.toNat 0.0) =
        .ok xs := by
  unfold samplePoint
  by_cases h : g.numInputs < 0 ∨ Program.lengthLimit ≤ g.numInputs.toNat
  · rw [if_pos h]
    constructor
    · intro hthrow
      cases hthrow
    · rintro ⟨hnonneg, hlimit, -⟩
      omega
  · rw [if_neg h]
    constructor
    · exact fun hpoint => ⟨by omega, by omega, hpoint⟩
    · exact fun hpoint => hpoint.2.2

theorem samplePoint_append {g : Graph β} {m k : Nat} (hlimit : m + k < Program.lengthLimit)
    {xs : Array Float} (h : ({ g with numInputs := m } : Graph β).samplePoint read = .ok xs) :
    ({ g with numInputs := (m + k : Nat) } : Graph β).samplePoint read =
      .ok (xs ++ Array.replicate k 0.0) := by
  obtain ⟨-, -, hpoint⟩ := samplePoint_eq_ok.mp h
  refine samplePoint_eq_ok.mpr ⟨Int.natCast_nonneg _, hlimit, ?_⟩
  have hpadded := foldlM_setSample_append hpoint (Array.replicate k 0.0)
  rwa [Array.replicate_append_replicate] at hpadded

theorem FitsInputs.exists_samplePoint {g : Graph Float} (hfits : g.FitsInputs)
    (hnonneg : 0 ≤ g.numInputs) (hlimit : g.numInputs.toNat < Program.lengthLimit) :
    ∃ xs, g.samplePoint .ok = .ok xs ∧ xs.size = g.numInputs.toNat := by
  have hsize : (Array.replicate g.numInputs.toNat (0.0 : Float)).size = g.numInputs.toNat :=
    Array.size_replicate
  have hlt : ∀ p ∈ g.nodes, ∀ k ∈ p.2.position?,
      k < (Array.replicate g.numInputs.toNat (0.0 : Float)).size := by
    rintro ⟨id, n⟩ hp k hk
    obtain ⟨s, rfl⟩ := Node.eq_input_of_position? hk
    have hfit : (k : Int) < g.numInputs := hfits id k s hp
    omega
  obtain ⟨xs, hxs, hsize'⟩ := exists_foldlM_setSample hlt
  exact ⟨xs, samplePoint_eq_ok.mpr ⟨hnonneg, hlimit, hxs⟩, hsize'.trans hsize⟩

end Graph
end

namespace Graph
variable {g : Graph Float}

/-- Under these settings the graph compiles to the program `p`, and at its sample point `point` it has
these outputs and values, in every workspace. -/
structure SampledBy (g : Graph Float) (settings : Settings) (p : Program Float) (point : Array Float)
    (out : Outputs Float) (values : List (Text × Float)) : Prop where
  compile : ∀ w : Workspace Float, w.settings = settings → ∃ log,
    (g.compile none).run w = (.ok p, { w with log })
  samplePoint : g.samplePoint .ok = .ok point
  call : ∀ w : Workspace Float, ∃ log, (p.call Binary64.calculus point).run w = (.ok out, { w with log })
  nodeTable : ∀ w : Workspace Float, ∃ log,
    (p.nodeTable Binary64.calculus.rules point).run w = (.ok values, { w with log })

theorem compile?_withLength {α : Type} (g : Graph α) (n : Int) (settings : Settings) :
    ({ g with numInputs := n } : Graph α).compile? settings =
      (g.compile? settings).map fun p => { p with numInputs := n } := by
  unfold compile?
  simp only [Option.bind_eq_bind, Option.map_bind, Function.comp_def]
  rfl

theorem sampledBy_of_run {p : Program Float} {settings : Settings} (hp : p.Compiles g)
    (hcompile : g.compile? settings = some p) {point : Array Float}
    (hpoint : g.samplePoint .ok = .ok point) {V : Text → Float}
    (hV : g.net.Evaluates Binary64.calculus.rules point V) {out : Outputs Float}
    (hrun : p.run Binary64.calculus point = some out)
    (hlimit : p.gradientLength point.size < Program.lengthLimit) :
    g.SampledBy settings p point out (g.tabulated V) where
  compile w hw := run_compile (by rwa [hw])
  samplePoint := hpoint
  call w := by
    obtain ⟨log, hcall⟩ := Program.run_call (w := w) hrun
    rw [if_pos hlimit] at hcall
    exact ⟨log, hcall⟩
  nodeTable w := hp.run_nodeTable hV w

theorem WellFormed.withLength (hg : g.WellFormed) (n : Int) :
    ({ g with numInputs := n } : Graph Float).WellFormed :=
  ⟨hg.ids_nodup, hg.order_perm, hg.operands_before, hg.primary_mem, hg.secondary_mem⟩

/-- On a point of the length that the program was built against, padded with zeros, the program that
was built against the padded length pads the gradient with zeros. -/
theorem exists_run_padded {p : Program Float} {m : Nat} (hp : p.Compiles { g with numInputs := m })
    (hg : g.WellFormed) {point : Array Float} (hsize : point.size = m)
    (hm : ∀ id k s, g.net id (.input k s) → k < m) {V : Text → Float}
    (hV : g.net.Evaluates Binary64.calculus.rules point V) (k : Nat) :
    ∃ out, p.run Binary64.calculus point = some out ∧ out.gradient.size = m ∧
      ({ p with numInputs := (m + k : Nat) } : Program Float).run Binary64.calculus
          (point ++ Array.replicate k 0.0) =
        some { out with gradient := out.gradient ++ Array.replicate k 0.0 } := by
  have hwell := hg.withLength (m : Int)
  obtain ⟨out, hrun, -, -, hgradient⟩ := hp.exists_outputs hwell hV fun id k s hn =>
    Nat.lt_of_lt_of_le (hm id k s hn) (Nat.le_max_left _ _)
  have happend := hp.topological.run_append (hp.maps.evaluates hV) (hp.primary_lt hwell)
    (hp.secondary_lt hwell) (fun i k s hn => hsize ▸ hm _ k s (hp.maps hn))
    (by rw [hp.numInputs, hsize]; exact Nat.le_refl m) hrun (Array.replicate k 0.0)
  rw [Array.size_replicate] at happend
  refine ⟨out, hrun, ?_, ?_⟩
  · rw [hgradient, hsize]
    exact Nat.max_self m
  · -- the padded vector is as long as the gradient, whichever length the program was built against
    refine (Program.run_withLength ?_).trans happend
    rw [Program.gradientLength_withLength, Program.gradientLength, hp.numInputs, Array.size_append,
      Array.size_replicate, hsize]
    exact (Nat.max_self _).trans (Nat.max_eq_right (Nat.le_add_right m k)).symm

/-- With a longer input vector a graph has the same outputs and values at its sample point, but for
zeros at the end of the gradient. -/
theorem WellFormed.exists_sampledBy (hg : g.WellFormed) {m : Nat}
    (hm : ∀ id k s, g.net id (.input k s) → k < m) (k : Nat)
    (hlimit : m + k < Program.lengthLimit) (settings : Settings) :
    ∃ p point p' point' out values,
      ({ g with numInputs := m } : Graph Float).SampledBy settings p point out values ∧
      out.gradient.size = m ∧
      ({ g with numInputs := (m + k : Nat) } : Graph Float).SampledBy settings p' point'
        { out with gradient := out.gradient ++ Array.replicate k 0.0 } values := by
  obtain ⟨p, hcompile, hp, -⟩ := hg.exists_compile settings
  have hcompile? (n : Nat) : ({ g with numInputs := n } : Graph Float).compile? settings =
      some { p with numInputs := n } := by
    rw [compile?_withLength, hcompile, Option.map_some]
  have hcompiles (n : Nat) :
      ({ p with numInputs := n } : Program Float).Compiles { g with numInputs := n } :=
    { hp with numInputs := rfl }
  have hfits : ({ g with numInputs := m } : Graph Float).FitsInputs := fun id k s hn =>
    Int.ofNat_lt.mpr (hm id k s hn)
  obtain ⟨point, hpoint, hsize⟩ : ∃ point,
      ({ g with numInputs := m } : Graph Float).samplePoint .ok = .ok point ∧ point.size = m :=
    hfits.exists_samplePoint (Int.natCast_nonneg m) (Nat.lt_of_le_of_lt (Nat.le_add_right m k) hlimit)
  have : Nonempty Float := ⟨0.0⟩
  obtain ⟨V, hV⟩ := hg.ranked.exists_evaluates Binary64.calculus.rules point
  have hV' : g.net.Evaluates Binary64.calculus.rules (point ++ Array.replicate k 0.0) V :=
    hV.of_sameInputs (Net.sameInputs_append (fun id k s hn => hsize ▸ hm id k s hn) _)
  obtain ⟨out, hrun, hlength, hpadded⟩ := exists_run_padded (hcompiles m) hg hsize hm hV k
  refine ⟨_, point, _, _, out, g.tabulated V,
    sampledBy_of_run (hcompiles m) (hcompile? m) hpoint hV hrun ?_, hlength,
    sampledBy_of_run (hcompiles (m + k)) (hcompile? (m + k)) (samplePoint_append hlimit hpoint) hV'
      hpadded ?_⟩
  · rw [Program.gradientLength_withLength, hsize]
    omega
  · rw [Program.gradientLength_withLength, Array.size_append, Array.size_replicate, hsize]
    omega

end Graph
end ScalarGraph
