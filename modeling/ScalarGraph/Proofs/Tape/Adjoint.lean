import ScalarGraph.Proofs.Program.Adjoint
import ScalarGraph.Proofs.Tape.Program

/-! # Adjoints on tapes

The gradient of a tape's program is what the inputs enter that its root needs, with adjoints that solve the
equations of the needed nodes. Where a single node uses another one, that adjoint is what this node
passes on.
-/
namespace ScalarGraph
variable {α ι : Type}

namespace NodeList
variable {C : Calculus α} {skip : Bool} {V A : ι → α} {L : NodeList α ι} {q : ι × Node α ι}

/-- The only node of a list for which `P` holds stands between nodes for which it does not. -/
theorem exists_split (hnodup : L.Nodup) (hq : q ∈ L) {P : ι × Node α ι → Prop}
    (honly : ∀ p ∈ L, P p → p = q) : ∃ l₁ l₂, L = l₁ ++ q :: l₂ ∧ (∀ p ∈ l₁, ¬P p) ∧ ∀ p ∈ l₂, ¬P p := by
  obtain ⟨l₁, l₂, rfl⟩ := List.append_of_mem hq
  obtain ⟨hbefore, hafter⟩ : q ∉ l₁ ∧ q ∉ l₂ := by
    have hsplit := List.nodup_middle.mp hnodup
    exact ⟨fun h => (List.nodup_cons.mp hsplit).1 (List.mem_append_left _ h),
      fun h => (List.nodup_cons.mp hsplit).1 (List.mem_append_right _ h)⟩
  refine ⟨l₁, l₂, rfl, fun p hp hP => ?_, fun p hp hP => ?_⟩
  · exact hbefore (honly p (List.mem_append_left _ hp) hP ▸ hp)
  · exact hafter (honly p (List.mem_append_right _ (List.mem_cons_of_mem q hp)) hP ▸ hp)

variable [DecidableEq ι] {k : ι} {a : α}

theorem total_passed_of_unused (h : ∀ p ∈ L, k ∉ p.2.operands) :
    C.adjoints.total a k (L.passed C skip V A) = a := by
  refine Adjoints.total_of_notMem fun d hd => ?_
  obtain ⟨p, hp, hd⟩ := List.mem_flatMap.mp hd
  rintro rfl
  split at hd
  · cases hd
  · exact h p hp (Node.operand_of_mem_passed hd)

/-- An adjoint adds up what the only user passes on. -/
theorem total_passed_eq (hnodup : L.Nodup) (hq : q ∈ L) (honly : ∀ p ∈ L, k ∈ p.2.operands → p = q) :
    C.adjoints.total a k (L.passed C skip V A) = C.adjoints.total a k
      (if skip && C.adjoints.isZero (A q.1) then [] else q.2.passed C V (V q.1) (A q.1)) := by
  obtain ⟨l₁, l₂, rfl, h₁, h₂⟩ := exists_split hnodup hq honly
  have hpassed : passed C skip V A (l₁ ++ q :: l₂) = passed C skip V A l₁ ++
      ((if skip && C.adjoints.isZero (A q.1) then [] else q.2.passed C V (V q.1) (A q.1)) ++
        passed C skip V A l₂) := by
    rw [passed, List.flatMap_append, List.flatMap_cons]
    rfl
  rw [hpassed, Adjoints.total_append, Adjoints.total_append, total_passed_of_unused h₁,
    total_passed_of_unused h₂]

omit [DecidableEq ι] in
theorem total_entered_of_unused {i : Nat} (h : ∀ p ∈ L, p.2.position? ≠ some i) :
    C.adjoints.total a i (L.entered C skip A) = a := by
  refine Adjoints.total_of_notMem fun d hd => ?_
  obtain ⟨p, hp, hd⟩ := List.mem_flatMap.mp hd
  rintro rfl
  split at hd
  · cases hd
  · obtain ⟨j, hj, rfl⟩ := Option.map_eq_some_iff.mp (Option.mem_toList.mp hd)
    exact h p hp hj

omit [DecidableEq ι] in
theorem total_entered_eq (hnodup : L.Nodup) (hq : q ∈ L) {i : Nat}
    (honly : ∀ p ∈ L, p.2.position? = some i → p = q) :
    C.adjoints.total a i (L.entered C skip A) = C.adjoints.total a i
      (if skip && C.adjoints.isZero (A q.1) then [] else (q.2.position?.map (·, A q.1)).toList) := by
  obtain ⟨l₁, l₂, rfl, h₁, h₂⟩ := exists_split hnodup hq honly
  have hentered : entered C skip A (l₁ ++ q :: l₂) = entered C skip A l₁ ++
      ((if skip && C.adjoints.isZero (A q.1) then [] else (q.2.position?.map (·, A q.1)).toList) ++
        entered C skip A l₂) := by
    rw [entered, List.flatMap_append, List.flatMap_cons]
    rfl
  rw [hentered, Adjoints.total_append, Adjoints.total_append, total_entered_of_unused h₁,
    total_entered_of_unused h₂]

end NodeList

namespace Tape.Extracts
variable [DecidableEq α] [Hashable α] [Written α] {t : Tape α} {r : Nat} {secondary : List Nat}
  {g : Graph α} {p : Program α} {C : Calculus α} {xs : Array α} {V : Nat → α}

theorem exists_root (hg : t.Extracts (some r) secondary g) (hroots : ∀ i ∈ r :: secondary, i < t.size)
    (hp : p.Compiles g) : ∃ s, p.primary = some s ∧ s < p.code.size ∧
      (t.index (r :: secondary) ∘ p.name) s = r := by
  obtain ⟨s, hs, hsr⟩ := Option.map_eq_some_iff.mp (hg.map_primary hroots hp)
  exact ⟨s, hs, hp.primary_lt hg.assembled.wellFormed s hs, hsr⟩

theorem exists_adjoints (hg : t.Extracts (some r) secondary g) (ht : t.Valid)
    (hroots : ∀ i ∈ r :: secondary, i < t.size) (hp : p.Compiles g)
    (hV : t.net.Evaluates C.rules xs V) : ∃ (L : NodeList α Nat) (A : Nat → α),
      t.net.Lists r L ∧ L.Solves C p.settings.skipZeroAdjoints V A r ∧
      ∀ out, p.run C xs = some out → ∀ i d, out.gradient[i]? = some d →
        d = C.adjoints.total C.adjoints.zero i (L.entered C p.settings.skipZeroAdjoints A) := by
  obtain ⟨s, hs, hlt, hsr⟩ := hg.exists_root hroots hp
  have hreads : p.Reads t.net (t.index (r :: secondary) ∘ p.name) (g.slot ∘ t.name (r :: secondary)) :=
    hg.reads ht hp
  obtain ⟨L, A, hL, hA, hgradient⟩ := hreads.exists_adjoints (C := C) ht.ranked hs hlt V
  rw [hsr] at hL hA
  refine ⟨L, A, hL, hA, fun out hrun i d hd => ?_⟩
  rw [hreads.topological.run_eq (hreads.maps.evaluates hV) hs hlt
    (hp.secondary_lt hg.assembled.wellFormed)] at hrun
  obtain ⟨sweep, hsweep, rfl⟩ := Option.map_eq_some_iff.mp hrun
  have hsum := hgradient (p.gradientLength xs.size)
  rw [hsweep, Option.map_some] at hsum
  have hentry := Program.addShares_getElem? hsum.symm i
  obtain ⟨z, hz, hzd⟩ := Option.map_eq_some_iff.mp (hentry.symm.trans hd)
  rw [← hzd, Array.eq_of_mem_replicate (Array.mem_of_getElem? hz)]

end Tape.Extracts
end ScalarGraph
