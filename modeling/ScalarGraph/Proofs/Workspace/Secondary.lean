import ScalarGraph.Proofs.Evaluation
import ScalarGraph.Proofs.Graph.Gradient
import ScalarGraph.Proofs.Tape.Program
import ScalarGraph.Proofs.Workspace.Reached

/-! # Secondary outputs

Secondary outputs are evaluated beside a primary one, but they have no part in its value and in its
gradient: the program for a primary output gives the same whatever else is extracted with it. Each
secondary value is that of its handle extracted alone.
-/
namespace ScalarGraph
variable {α : Type} [DecidableEq α] [Hashable α] [Written α]

/-- The outputs are extracted and compiled to the program, which changes no more than the log. -/
def Workspace.Evaluator (w : Workspace α) (settings : Option Settings) (primary : Option Handle)
    (secondary : List Handle) (p : Program α) : Prop :=
  ∃ log, (do (← makeGraph primary secondary).compile settings : Build α (Program α)).run w =
    (.ok p, { w with log })

omit [Written α] in
/-- In every workspace a call gives these outputs, unless the gradient is too long to be stored. -/
def Program.Gives (p : Program α) (C : Calculus α) (xs : Array α) (out : Outputs α) : Prop :=
  ∀ w : Workspace α, ∃ log, (p.call C xs).run w =
    (if out.gradient.size < Program.lengthLimit then .ok out else .error .badValue, { w with log })

/-- Outputs on one tape have an evaluator, whose graph is extracted from the tape. -/
theorem Workspace.exists_evaluator {w : Workspace α} {k : Nat} (ht : (w.tape k).Valid)
    (settings : Option Settings) {primary : Option Handle} {secondary : List Handle}
    (hne : primary.toList ++ secondary ≠ [])
    (hk : ∀ h ∈ primary.toList ++ secondary, h.tape = k ∧ h.index < (w.tape k).size) :
    ∃ g p, w.Evaluator settings primary secondary p ∧
      (w.tape k).Extracts (primary.map (·.index)) (secondary.map (·.index)) g ∧ p.Compiles g ∧
      p.settings = settings.getD w.settings := by
  obtain ⟨g, log, hrun, hg⟩ := exists_makeGraph ht hne hk
  obtain ⟨p, log', hcompile, hp, hsettings⟩ :=
    hg.assembled.wellFormed.exists_compile_run settings (w := { w with log })
  refine ⟨g, p, ⟨log', ?_⟩, hg, hp, hsettings⟩
  rw [Build.run_bind_ok hrun, hcompile]

theorem Tape.Extracts.exists_gives {t : Tape α} {primary : Option Nat} {secondary : List Nat}
    {g : Graph α} (hg : t.Extracts primary secondary g) (ht : t.Valid)
    (hroots : ∀ i ∈ primary.toList ++ secondary, i < t.size) {p : Program α} (hp : p.Compiles g)
    {C : Calculus α} {xs : Array α} {V : Nat → α} (hV : t.net.Evaluates C.rules xs V) :
    ∃ out, p.run C xs = some out ∧ p.Gives C xs out ∧ out.primary = primary.map V ∧
      out.secondary = secondary.map V := by
  obtain ⟨out, hrun, hprimary, hsecondary, hsize⟩ := hg.exists_outputs ht hroots hp hV
  refine ⟨out, hrun, fun w => ?_, hprimary, hsecondary⟩
  obtain ⟨log, hcall⟩ := Program.run_call (w := w) hrun
  refine ⟨log, ?_⟩
  rw [hcall, hsize, Program.gradientLength, hp.numInputs, hg.numInputs, Int.toNat_natCast]

/-- On every reachable tape the evaluators of a primary output with any two lists of secondary ones
give the same primary value, and the same gradient where adjoints can be added in any order. Every
secondary value is what the evaluator of its handle alone gives. -/
theorem Workspace.Reached.secondary_noninterference {R : Rules α} {w : Workspace α}
    (hw : w.Reached R) {k : Nat} {x : Handle} {S S' : List Handle}
    (hk : ∀ h ∈ x :: (S ++ S'), h.tape = k ∧ h.index < (w.tape k).size) (settings : Option Settings) :
    ∃ p p', w.Evaluator settings (some x) S p ∧ w.Evaluator settings (some x) S' p' ∧
      ∀ (C : Calculus α) (xs : Array α), ∃ out out', p.Gives C xs out ∧ p'.Gives C xs out' ∧
        out'.primary = out.primary ∧
        (C.adjoints.Unordered → out'.gradient = out.gradient) ∧
        out.secondary.length = S.length ∧
        ∀ (i : Nat) (h : Handle), S[i]? = some h → ∃ q alone y, w.Evaluator settings none [h] q ∧
          q.Gives C xs alone ∧ alone.secondary = [y] ∧ out.secondary[i]? = some y := by
  have ht : (w.tape k).Valid := hw.ready.valid k
  have hS : ∀ h ∈ (some x).toList ++ S, h.tape = k ∧ h.index < (w.tape k).size := fun h hh =>
    hk h (by simp at hh ⊢; tauto)
  have hS' : ∀ h ∈ (some x).toList ++ S', h.tape = k ∧ h.index < (w.tape k).size := fun h hh =>
    hk h (by simp at hh ⊢; tauto)
  obtain ⟨g, p, hp, hg, hcompiles, hsettings⟩ := exists_evaluator ht settings (by simp) hS
  obtain ⟨g', p', hp', hg', hcompiles', hsettings'⟩ := exists_evaluator ht settings (by simp) hS'
  refine ⟨p, p', hp, hp', fun C xs => ?_⟩
  have : Nonempty α := ⟨C.adjoints.zero⟩
  obtain ⟨V, hV⟩ := ht.ranked.exists_evaluates C.rules xs
  obtain ⟨out, hrun, hgives, hprimary, hsecondary⟩ := hg.exists_gives ht (roots_lt hS) hcompiles hV
  obtain ⟨out', hrun', hgives', hprimary', -⟩ := hg'.exists_gives ht (roots_lt hS') hcompiles' hV
  refine ⟨out, out', hgives, hgives', hprimary'.trans hprimary.symm, fun hC => ?_, ?_, fun i h hi => ?_⟩
  · have hgradient := hg.run_gradient_eq hg' ht (roots_lt hS) (roots_lt hS') hcompiles hcompiles'
      (hsettings.trans hsettings'.symm) hC hV
    rw [hrun, hrun'] at hgradient
    exact (Option.some.inj hgradient).symm
  · rw [hsecondary, List.length_map, List.length_map]
  · have halone : ∀ u ∈ (none : Option Handle).toList ++ [h],
        u.tape = k ∧ u.index < (w.tape k).size := by
      intro u hu
      obtain rfl : u = h := by simpa using hu
      exact hk u (by simp [List.mem_of_getElem? hi])
    obtain ⟨g₁, q, hq, hg₁, hcompiles₁, -⟩ := exists_evaluator ht settings (by simp) halone
    obtain ⟨alone, -, hgives₁, -, hvalue⟩ := hg₁.exists_gives ht (roots_lt halone) hcompiles₁ hV
    refine ⟨q, alone, V h.index, hq, hgives₁, hvalue, ?_⟩
    rw [hsecondary, List.getElem?_map, List.getElem?_map, hi]
    rfl

theorem secondary_noninterference_inputPlusTwo : ∃ (w : Workspace Int) (x : Handle) (p p' : Program Int)
    (out out' : Outputs Int), w.Evaluator none (some x) [] p ∧
      w.Evaluator none (some x) [⟨x.tape, 0⟩, x] p' ∧ p.Gives Graph.polynomials #[5] out ∧
      p'.Gives Graph.polynomials #[5] out' ∧ out'.primary = out.primary ∧
      out'.gradient = out.gradient := by
  obtain ⟨-, w, -, x, -, -, hw, htape, hindex⟩ := exists_inputPlusTwo Graph.polynomials.rules
  have hk : ∀ h ∈ x :: ([] ++ [⟨x.tape, 0⟩, x]), h.tape = w.active ∧
      h.index < (w.tape w.active).size := by
    simp [htape, hindex, Nat.zero_lt_of_lt hindex]
  obtain ⟨p, p', hp, hp', hgives⟩ := hw.secondary_noninterference hk none
  obtain ⟨out, out', hout, hout', hprimary, hgradient, -⟩ := hgives Graph.polynomials #[5]
  have hunordered : Graph.polynomials.adjoints.Unordered := ⟨Int.add_comm, Int.add_assoc⟩
  exact ⟨w, x, p, p', out, out', hp, hp', hout, hout', hprimary, hgradient hunordered⟩

end ScalarGraph
