import ScalarGraph.Proofs.ChainRule
import ScalarGraph.Proofs.Program.Reverse

/-! # The reverse sweep is the chain rule

Weighed by the derivatives of their slots, the adjoints of the slots that are still to be
visited and the entry of the gradient add up to the derivative of the primary output. Every
step keeps this sum: it takes an adjoint out and passes on what that adjoint is worth.
-/
namespace ScalarGraph.Program
variable {α : Type} [CommRing α] {p : Program α} {C : Calculus α} {V D : Nat → α}

/-- The adjoints of some slots, each weighed by the derivative of its slot. -/
def weigh (D : Nat → α) (l : List Nat) (xs : Array α) : α :=
  (l.map fun i => xs.getD i 0 * D i).sum

theorem weigh_cons (D : Nat → α) (i : Nat) (l : List Nat) (xs : Array α) :
    weigh D (i :: l) xs = xs.getD i 0 * D i + weigh D l xs := by
  simp [weigh]

theorem weigh_set_of_notMem {l : List Nat} {xs : Array α} {c : Nat} (hc : c < xs.size)
    (h : c ∉ l) (v : α) : weigh D l (xs.set c v) = weigh D l xs := by
  unfold weigh
  refine congrArg List.sum (List.map_congr_left fun i hi => ?_)
  have hne : c ≠ i := fun he => h (he ▸ hi)
  simp [Array.getD_eq_getD_getElem?, hne]

theorem weigh_set {l : List Nat} (hl : l.Nodup) {xs : Array α} {c : Nat} (hc : c < xs.size)
    (h : c ∈ l) (d : α) : weigh D l (xs.set c (xs[c] + d)) = weigh D l xs + d * D c := by
  induction l with
  | nil => cases h
  | cons i l ih =>
    obtain ⟨hi, hl⟩ := List.nodup_cons.mp hl
    rw [weigh_cons, weigh_cons]
    rcases List.mem_cons.mp h with rfl | h
    · rw [weigh_set_of_notMem hc hi]
      simp [Array.getD_eq_getD_getElem?, hc]
      ring
    · have hne : c ≠ i := fun he => hi (he ▸ h)
      rw [ih hl h]
      simp [Array.getD_eq_getD_getElem?, hne]
      ring

theorem weigh_addShares (hC : C.adjoints.Exact) {l : List Nat} (hl : l.Nodup) {xs ys : Array α}
    {shares : List (Nat × α)} (hmem : ∀ q ∈ shares, q.1 ∈ l)
    (h : addShares C.adjoints xs shares = some ys) :
    weigh D l ys = weigh D l xs + (shares.map fun q => q.2 * D q.1).sum := by
  induction shares generalizing xs with
  | nil => cases h; simp
  | cons q shares ih =>
    rw [addShares, List.foldlM_cons] at h
    obtain ⟨zs, hzs, h⟩ := Option.bind_eq_some_iff.mp h
    have hrec := ih (fun r hr => hmem r (List.mem_cons_of_mem _ hr)) h
    unfold addAt at hzs
    split at hzs
    · next hq =>
      cases hzs
      rw [hrec, hC.add, weigh_set hl hq (hmem q List.mem_cons_self)]
      simp only [List.map_cons, List.sum_cons]
      ring
    · cases hzs

/-- What a slot passes on is worth its adjoint times its derivative. -/
theorem sum_sharesAt (hC : C.adjoints.Exact) {k : Nat} (hD : p.net.ChainRule C V k D) {i : Nat}
    {n : Node α Nat} (hn : p.net i n) (hpos : n.position? = none) (a : α) :
    ((sharesAt C V i n a).map fun q => q.2 * D q.1).sum = a * D i := by
  have hzip : (sharesAt C V i n a).map (fun q => q.2 * D q.1) =
      List.zipWith (· * ·) ((n.map V).shares C (V i) a) (n.operands.map D) := by
    unfold sharesAt
    rw [List.zip_eq_zipWith, List.map_zipWith, List.zipWith_map_right, List.zipWith_comm]
  rw [hzip, Node.sum_shares hC (by simpa using hpos), hD i n hn]

theorem weigh_replicate (D : Nat → α) (l : List Nat) (n : Nat) :
    weigh D l (Array.replicate n 0) = 0 := by
  have hzero : ∀ i, (Array.replicate n (0 : α)).getD i 0 = 0 := fun i => by
    simp only [Array.getD_eq_getD_getElem?, Array.getElem?_replicate]
    split <;> rfl
  simp [weigh, hzero]

theorem weigh_seed (hC : C.adjoints.Exact) {length r : Nat} (hlt : r < p.code.size) {l : List Nat}
    (hl : l.Nodup) (hr : r ∈ l) : weigh D l (p.seed C.adjoints length r).adjoints = D r := by
  have hsize : r < (Array.replicate p.code.size (0 : α)).size := by simpa using hlt
  have hseed : (p.seed C.adjoints length r).adjoints =
      (Array.replicate p.code.size 0).set r ((Array.replicate p.code.size (0 : α))[r] + 1) := by
    simp [seed, hC.zero, hC.one, Array.setIfInBounds, hlt]
  rw [hseed, weigh_set hl hsize hr, weigh_replicate, zero_add, one_mul]

theorem getD_addAt (hC : C.adjoints.Exact) {xs ys : Array α} {i : Nat} {d : α}
    (h : addAt C.adjoints xs i d = some ys) (k : Nat) :
    ys.getD k 0 = xs.getD k 0 + if i = k then d else 0 := by
  unfold addAt at h
  split at h
  · next hi =>
    cases h
    by_cases hik : i = k
    · subst hik
      simp [Array.getD_eq_getD_getElem?, hi, hC.add]
    · simp [Array.getD_eq_getD_getElem?, hik]
  · cases h

/-- A step keeps the sum of the gradient's entry and the weighed adjoints. -/
theorem Passes.weigh_eq (hp : p.Topological) (hC : C.adjoints.Exact) {k : Nat}
    (hD : p.net.ChainRule C V k D) {i : Nat} {l : List Nat} {n : Node α Nat} {s s' : Sweep α}
    (hl : p.Descends (i :: l)) (hn : p.net i n) (h : p.Passes C V i n s s') :
    s'.gradient.getD k 0 + weigh D l s'.adjoints =
      s.gradient.getD k 0 + weigh D (i :: l) s.adjoints := by
  have hget : ∀ a, s.adjoints[i]? = some a → s.adjoints.getD i 0 = a := fun a ha => by
    rw [Array.getD_eq_getD_getElem?, ha, Option.getD_some]
  rw [weigh_cons]
  cases h with
  | @skip a ha hskip hzero => rw [hget a ha, hC.eq_zero a hzero, zero_mul, zero_add]
  | @input a j sample gradient ha hlive hinput hadd =>
    have hDi : D i = if j = k then 1 else 0 := by
      rw [hD i n hn, hinput]
      rfl
    rw [getD_addAt hC hadd, hDi, hget a ha]
    simp only [mul_ite, mul_one, mul_zero]
    ring
  | @operator a adjoints ha hlive hpos hadd =>
    have hmem : ∀ q ∈ sharesAt C V i n a, q.1 ∈ l := fun q hq =>
      hl.operand_mem hp ⟨n, hn, operand_of_mem_sharesAt hq⟩
    rw [weigh_addShares hC (hl.tail hp).nodup hmem hadd, sum_sharesAt hC hD hn hpos, hget a ha]
    ring

/-- The gradient that the sweep leaves is the derivative of the primary output. -/
theorem Topological.gradient_eq (hp : p.Topological) (hC : C.adjoints.Exact) {k : Nat}
    (hD : p.net.ChainRule C V k D) {r : Nat} (hr : p.primary = some r) (hlt : r < p.code.size)
    {length : Nat} (hk : k < length) {s : Sweep α}
    (hrun : p.reverse C (valuesBelow V p.code.size) length r = some s) :
    s.gradient[k]? = some (D r) := by
  have hl := hp.descends_gradientPath hr hlt
  have hmem : r ∈ p.gradientPath := (hp.mem_gradientPath hr hlt).mpr .refl
  have hstart : (p.seed C.adjoints length r).gradient.getD k 0 +
      weigh D p.gradientPath (p.seed C.adjoints length r).adjoints = D r := by
    rw [weigh_seed hC hlt hl.nodup hmem]
    simp [seed, hC.zero, Array.getD_eq_getD_getElem?, hk]
  obtain ⟨hfits, hend⟩ := hp.sweep_induction
    (motive := fun l s => s.gradient.getD k 0 + weigh D l s.adjoints = D r)
    (fun i l n s s' hl hn _ h hs => (h.weigh_eq hp hC hD hl hn).trans hs) hl
    (p.fits_seed C.adjoints length r) hstart hrun
  have hsize : k < s.gradient.size := by
    rw [hfits.gradient]
    exact hk
  rw [Array.getElem?_eq_getElem hsize]
  simpa [weigh, Array.getD_eq_getD_getElem?, hsize] using hend

end ScalarGraph.Program
