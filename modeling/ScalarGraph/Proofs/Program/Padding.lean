import ScalarGraph.Proofs.Program.Run

/-! # Longer input vectors

The values of the slots depend only on the entries at positions of inputs. A vector that has all of
these can be padded: the outputs stay the same and the gradient is padded with zeros.
-/
namespace ScalarGraph
variable {α ι : Type}

def Net.SameInputs (N : Net α ι) (xs ys : Array α) : Prop :=
  ∀ i k s, N i (.input k s) → ys[k]?.getD s = xs[k]?.getD s

theorem Net.Evaluates.of_sameInputs {N : Net α ι} {R : Rules α} {xs ys : Array α} {V : ι → α}
    (hV : N.Evaluates R xs V) (h : N.SameInputs xs ys) : N.Evaluates R ys V := by
  intro i n hn
  rw [hV i n hn]
  cases n with
  | input k s => exact (h i k s hn).symm
  | _ => rfl

theorem Net.sameInputs_append {N : Net α ι} {xs : Array α}
    (h : ∀ i k s, N i (.input k s) → k < xs.size) (ys : Array α) : N.SameInputs xs (xs ++ ys) := by
  intro i k s hn
  rw [Array.getElem?_append_left (h i k s hn)]

namespace Program
variable {p : Program α} {C : Calculus α} {values : Array α}

theorem addAt_append {A : Adjoints α} {xs ys : Array α} {i : Nat} {d : α}
    (h : addAt A xs i d = some ys) (zs : Array α) : addAt A (xs ++ zs) i d = some (ys ++ zs) := by
  unfold addAt at h
  split at h
  · next hi =>
    cases h
    have hi' : i < (xs ++ zs).size := by
      rw [Array.size_append]
      omega
    rw [addAt_eq A hi', Array.set_append_left hi, Array.getElem_append_left hi]
  · cases h

/-- What stands behind the gradient takes no part in a step. -/
theorem reverseStep_append {s s' : Sweep α} {i : Nat} (h : p.reverseStep C values s i = some s')
    (zs : Array α) : p.reverseStep C values { s with gradient := s.gradient ++ zs } i =
      some { s' with gradient := s'.gradient ++ zs } := by
  unfold reverseStep at h ⊢
  obtain ⟨a, ha, h⟩ := Option.bind_eq_some_iff.mp h
  refine Option.bind_eq_some_iff.mpr ⟨a, ha, ?_⟩
  split at h
  · next hskip =>
    cases h
    rw [if_pos hskip]
    rfl
  · next hlive =>
    rw [if_neg hlive]
    obtain ⟨n, hn, h⟩ := Option.bind_eq_some_iff.mp h
    refine Option.bind_eq_some_iff.mpr ⟨n, hn, ?_⟩
    split at h
    · obtain ⟨gradient, hadd, h⟩ := Option.bind_eq_some_iff.mp h
      cases h
      exact Option.bind_eq_some_iff.mpr ⟨_, addAt_append hadd zs, rfl⟩
    · obtain ⟨given, hgiven, h⟩ := Option.bind_eq_some_iff.mp h
      obtain ⟨v, hv, h⟩ := Option.bind_eq_some_iff.mp h
      obtain ⟨adjoints, hadd, h⟩ := Option.bind_eq_some_iff.mp h
      cases h
      exact Option.bind_eq_some_iff.mpr ⟨given, hgiven, Option.bind_eq_some_iff.mpr
        ⟨v, hv, Option.bind_eq_some_iff.mpr ⟨adjoints, hadd, rfl⟩⟩⟩

theorem foldlM_reverseStep_append {l : List Nat} {s s' : Sweep α}
    (h : l.foldlM (p.reverseStep C values) s = some s') (zs : Array α) :
    l.foldlM (p.reverseStep C values) { s with gradient := s.gradient ++ zs } =
      some { s' with gradient := s'.gradient ++ zs } := by
  induction l generalizing s with
  | nil => cases h; rfl
  | cons i l ih =>
    rw [List.foldlM_cons] at h ⊢
    obtain ⟨t, ht, h⟩ := Option.bind_eq_some_iff.mp h
    rw [reverseStep_append ht]
    exact ih h

theorem reverse_append {length r : Nat} {s : Sweep α} (h : p.reverse C values length r = some s)
    (k : Nat) : p.reverse C values (length + k) r =
      some { s with gradient := s.gradient ++ Array.replicate k C.adjoints.zero } := by
  have hseed : p.seed C.adjoints (length + k) r =
      { p.seed C.adjoints length r with
        gradient := (p.seed C.adjoints length r).gradient ++ Array.replicate k C.adjoints.zero } := by
    unfold seed
    rw [Array.replicate_append_replicate]
  unfold reverse
  rw [hseed]
  exact foldlM_reverseStep_append h _

theorem gradientLength_withLength (p : Program α) (n k : Nat) :
    ({ p with numInputs := n } : Program α).gradientLength k = max n k := rfl

/-- A run depends on the length that the program was built against only by the length of the gradient. -/
theorem run_withLength {n : Int} {xs : Array α}
    (h : ({ p with numInputs := n } : Program α).gradientLength xs.size = p.gradientLength xs.size) :
    ({ p with numInputs := n } : Program α).run C xs = p.run C xs := by
  unfold run outputs
  rw [h]
  rfl

theorem Topological.run_append (hp : p.Topological) {xs : Array α} {V : Nat → α}
    (hV : p.net.Evaluates C.rules xs V)
    (hprimary : ∀ r ∈ p.primary, r < p.code.size) (hsecondary : ∀ i ∈ p.secondary, i < p.code.size)
    (hinput : ∀ i k s, p.net i (.input k s) → k < xs.size) (hlength : p.numInputs.toNat ≤ xs.size)
    {out : Outputs α} (hrun : p.run C xs = some out) (ys : Array α) :
    p.run C (xs ++ ys) = some { out with
      gradient := out.gradient ++ Array.replicate ys.size C.adjoints.zero } := by
  have hV' : p.net.Evaluates C.rules (xs ++ ys) V := hV.of_sameInputs (Net.sameInputs_append hinput ys)
  have hlonger : p.gradientLength (xs ++ ys).size = p.gradientLength xs.size + ys.size := by
    rw [gradientLength, gradientLength, Array.size_append]
    omega
  cases hr : p.primary with
  | none =>
    rw [hp.run_eq_of_none hV hr hsecondary] at hrun
    rw [hp.run_eq_of_none hV' hr hsecondary, hlonger]
    cases hrun
    rw [Array.replicate_append_replicate]
  | some r =>
    rw [hp.run_eq hV hr (hprimary r hr) hsecondary] at hrun
    obtain ⟨s, hs, rfl⟩ := Option.map_eq_some_iff.mp hrun
    rw [hp.run_eq hV' hr (hprimary r hr) hsecondary, hlonger, reverse_append hs]
    rfl

end Program
end ScalarGraph
