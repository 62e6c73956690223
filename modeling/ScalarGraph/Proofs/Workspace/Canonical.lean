import ScalarGraph.Proofs.Tape.Canonical
import ScalarGraph.Proofs.Workspace.Extraction
import ScalarGraph.Proofs.Workspace.History

/-! # Canonical extraction from reachable workspaces

The graph of some outputs says what expressions they are and nothing about how their tape came to
be: outputs with the same trees have the same graph, in all but the length of the input vector.
-/
namespace ScalarGraph
variable {α : Type} [DecidableEq α] [Hashable α] [Written α] {R : Rules α}

theorem Workspace.Reached.steps {w v : Workspace α} (hw : w.Reached R)
    (h : Relation.ReflTransGen (Workspace.Step R) w v) : v.Reached R := by
  induction h with
  | refl => exact hw
  | tail h hstep ih => exact ih.step hstep

theorem Workspace.Reached.continues {w v : Workspace α} (hw : w.Reached R)
    (h : Relation.ReflTransGen (Workspace.Step R) w v) : w.Continues v := by
  induction h with
  | refl => exact .refl w
  | tail h hstep ih => exact ih.trans (hstep.continues (hw.steps h).ready)

/-- Two extractions of outputs with the same trees give the same graph up to the length of the
input vector. -/
theorem exists_makeGraph_canonical {w v : Workspace α} (hw : w.Ready) (hv : v.Ready) {k l : Nat}
    {primary primary' : Option Handle} {secondary secondary' : List Handle}
    (hne : primary.toList ++ secondary ≠ [])
    (hk : ∀ h ∈ primary.toList ++ secondary, h.tape = k ∧ h.index < (w.tape k).size)
    (hl : ∀ h ∈ primary'.toList ++ secondary', h.tape = l ∧ h.index < (v.tape l).size)
    (hprimary : (primary.map fun h => (w.tape k).unfolding h.index) =
      primary'.map fun h => (v.tape l).unfolding h.index)
    (hsecondary : (secondary.map fun h => (w.tape k).unfolding h.index) =
      secondary'.map fun h => (v.tape l).unfolding h.index) :
    ∃ g log, (makeGraph primary secondary).run w = (.ok g, { w with log }) ∧
      ∃ m log', (makeGraph primary' secondary').run v =
        (.ok { g with numInputs := m }, { v with log := log' }) := by
  have hne' : primary'.toList ++ secondary' ≠ [] := by
    intro hnil
    obtain ⟨hp, hs⟩ := List.append_eq_nil_iff.mp hnil
    rw [Option.toList_eq_nil_iff.mp hp, Option.map_none, Option.map_eq_none_iff] at hprimary
    rw [hs, List.map_nil, List.map_eq_nil_iff] at hsecondary
    rw [hprimary, hsecondary] at hne
    exact hne rfl
  obtain ⟨g, hg, m, hm⟩ := (hw.valid k).extract_canonical (hv.valid l) (roots_lt hk) (roots_lt hl)
    (by simpa [Function.comp_def] using hprimary) (by simpa [Function.comp_def] using hsecondary)
  obtain ⟨log, hrun⟩ := run_makeGraph hne (fun h hh => (hk h hh).1) hg
  obtain ⟨log', hrun'⟩ := run_makeGraph hne' (fun h hh => (hl h hh).1) hm
  exact ⟨g, log, hrun, m, log', hrun'⟩

/-- Outputs of reachable workspaces with the same trees have the same graph: the same nodes under
the same identifiers, edges, order and outputs, in the same order. The graph stays the same whatever
is done afterwards. Only the length of the input vector may differ. -/
theorem Workspace.Reached.makeGraph_canonical {R' : Rules α} {w v : Workspace α}
    (hw : w.Reached R) (hv : v.Reached R') {k l : Nat} {primary primary' : Option Handle}
    {secondary secondary' : List Handle} (hne : primary.toList ++ secondary ≠ [])
    (hk : ∀ h ∈ primary.toList ++ secondary, h.tape = k ∧ h.index < (w.tape k).size)
    (hl : ∀ h ∈ primary'.toList ++ secondary', h.tape = l ∧ h.index < (v.tape l).size)
    (hprimary : (primary.map fun h => (w.tape k).unfolding h.index) =
      primary'.map fun h => (v.tape l).unfolding h.index)
    (hsecondary : (secondary.map fun h => (w.tape k).unfolding h.index) =
      secondary'.map fun h => (v.tape l).unfolding h.index) :
    ∃ g log, (makeGraph primary secondary).run w = (.ok g, { w with log }) ∧
      (∃ m log', (makeGraph primary' secondary').run v =
        (.ok { g with numInputs := m }, { v with log := log' })) ∧
      ∀ u, Relation.ReflTransGen (Workspace.Step R) w u → ∃ m log',
        (makeGraph primary secondary).run u =
          (.ok { g with numInputs := m }, { u with log := log' }) := by
  obtain ⟨g, log, hg, hv'⟩ :=
    exists_makeGraph_canonical hw.ready hv.ready hne hk hl hprimary hsecondary
  refine ⟨g, log, hg, hv', fun u hu => ?_⟩
  have hready : u.Ready := (hw.steps hu).ready
  have hext : (w.tape k).Extends (u.tape k) := (hw.continues hu).tape k
  have hk' : ∀ h ∈ primary.toList ++ secondary, h.tape = k ∧ h.index < (u.tape k).size :=
    fun h hh => ⟨(hk h hh).1, Nat.lt_of_lt_of_le (hk h hh).2 hext.size_le⟩
  have hsame : ∀ h ∈ primary.toList ++ secondary,
      (w.tape k).unfolding h.index = (u.tape k).unfolding h.index := fun h hh =>
    (hext.unfolding_eq (hw.ready.valid k) (hready.valid k) (hk h hh).2).symm
  obtain ⟨g', log', hg', hu'⟩ := exists_makeGraph_canonical hw.ready hready hne hk hk'
    (Option.map_congr fun h hh => hsame h (by simp [Option.mem_def.mp hh]))
    (List.map_congr_left fun h hh => hsame h (List.mem_append_right _ hh))
  rw [hg] at hg'
  obtain rfl : g = g' := Except.ok.inj (congrArg Prod.fst hg')
  exact hu'

/-- The sum of the input at position 0 and 2 has one graph, also after a tape was added. -/
theorem makeGraph_canonical_inputPlusTwo : ∃ (w : Workspace Int) (x : Handle),
    w.Reached Graph.polynomials.rules ∧ ∃ g log, (makeGraph (some x) []).run w = (.ok g, { w with log }) ∧
      ∃ m log', (makeGraph (some x) []).run w.fresh =
        (.ok { g with numInputs := m }, { w.fresh with log := log' }) := by
  obtain ⟨-, w, -, x, -, -, hw, htape, hindex⟩ := exists_inputPlusTwo Graph.polynomials.rules
  have hk : ∀ h ∈ (some x).toList ++ [], h.tape = w.active ∧ h.index < (w.tape w.active).size := by
    simp [htape, hindex]
  obtain ⟨g, log, hg, -, hsteps⟩ := hw.makeGraph_canonical hw (by simp) hk hk rfl rfl
  exact ⟨w, x, hw, g, log, hg, hsteps w.fresh (.single .fresh)⟩

theorem Workspace.History.unfolding_eq {w v : Workspace α}
    {built built' : List (Handle × Term α (Nat × α))} (hw : w.History R built)
    (hv : v.History R built') {e : Term α (Nat × α)} {x y : Handle} (hx : (x, e) ∈ built)
    (hy : (y, e) ∈ built') :
    (w.tape x.tape).unfolding x.index = (v.tape y.tape).unfolding y.index := by
  rw [(hw.standsFor.2 _ hx).unfolding_eq, (hv.standsFor.2 _ hy).unfolding_eq]

end ScalarGraph
