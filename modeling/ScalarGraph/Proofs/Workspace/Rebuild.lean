import ScalarGraph.Proofs.Workspace.Constructed
import ScalarGraph.Proofs.Workspace.Replay

/-! # Rebuilding graphs

A graph that is built on an empty tape and extracted again is in normal form: building and
extracting it once more gives the same nodes under the same identifiers. Graphs of tapes that were
grown by constructors are in normal form already, since there is nothing left to settle in them.
-/
namespace ScalarGraph
variable {α β : Type} [DecidableEq α] [Hashable α] [Written α]

/-- Builds a graph on tape `k` and extracts it again. -/
def Graph.rebuild (g : Graph β) (R : Rules α) (read : β → Except Fault α) (k : Nat) :
    Build α (Graph α) := do
  let (primary, secondary) ← g.replay R read k
  makeGraph primary secondary

structure Workspace.BlankAt (k : Nat) (w : Workspace α) : Prop where
  ready : w.Ready
  tape_lt : k < w.tapes.size
  tape_eq : w.tape k = .empty

section
variable {R : Rules α} {u w w' : Workspace α} {j : Nat}

theorem Workspace.BlankAt.exists_replay (hu : u.BlankAt j) {g : Graph α} (hg : g.WellFormed)
    (hpos : g.positions.Nodup) {U : Text → Term α (Nat × α)} (hU : g.net.Solves Node.term U) :
    ∃ m v, (g.replay R .ok j).run u =
        (.ok (g.primary.map (m.handle j), g.secondary.map (m.handle j)), v) ∧
      g.Replays R U j u v g.order m := by
  refine Graph.exists_replay hu.ready hu.tape_lt hg hpos hU ?_
  rintro p r s ⟨-, ⟨i, hi⟩, -⟩
  rw [hu.tape_eq] at hi
  simp [Tape.net, Tape.empty] at hi

/-- A graph whose outputs have settled trees is the same when it is rebuilt. -/
theorem exists_rebuild_of_settled (hw : w.Ready) {primary : Option Handle} {secondary : List Handle}
    (hon : ∀ h ∈ primary.toList ++ secondary, h.index < (w.tape h.tape).size)
    (hsettled : ∀ h ∈ primary.toList ++ secondary,
      ((w.tape h.tape).unfolding h.index).settled R = (w.tape h.tape).unfolding h.index)
    {g : Graph α} (hrun : (makeGraph primary secondary).run w = (.ok g, w')) (hu : u.BlankAt j) :
    ∃ m v, (g.rebuild R .ok j).run u = (.ok { g with numInputs := m }, v) := by
  obtain ⟨k, hne, hk, -, hg⟩ := exists_extracts_of_makeGraph hw hon hrun
  have ht : (w.tape k).Valid := hw.valid k
  have hwell := hg.assembled.wellFormed
  obtain ⟨m, v, hreplay, h⟩ := hu.exists_replay (R := R) hwell hg.assembled.nodup_positions
    ((hg.maps ht).solves ht.solves_unfolding)
  -- the index that an output is replayed at has the tree of the output
  have htree : ∀ x ∈ primary.toList ++ secondary, (w.tape k).unfolding x.index =
      (v.tape j).unfolding (m.indexD ((w.tape k).name
        ((primary.map Handle.index).toList ++ secondary.map Handle.index) x.index)) := by
    intro x hx
    obtain ⟨htape, hindex⟩ := hk x hx
    have hroot : x.index ∈ (primary.map Handle.index).toList ++ secondary.map Handle.index := by
      rw [outputs_map]
      exact List.mem_map_of_mem hx
    have hfixed := hsettled x hx
    rw [htape] at hfixed
    rw [h.unfolding_eq _ (hg.name_mem_order hroot hindex), Function.comp_apply,
      Tape.index_name_root hroot hindex, hfixed]
  obtain ⟨g', log, hrun', l, log', hagain⟩ := exists_makeGraph_canonical hw h.ready hne hk
    (h.handle_mem hwell) (by
      rw [hg.primary_eq, Option.map_map, Option.map_map, Option.map_map]
      exact Option.map_congr fun x hx => htree x (by simp [Option.mem_def.mp hx])) (by
      rw [hg.secondary_eq, List.map_map, List.map_map, List.map_map]
      exact List.map_congr_left fun x hx => htree x (List.mem_append_right _ hx))
  rw [hrun] at hrun'
  obtain rfl : g = g' := Except.ok.inj (congrArg Prod.fst hrun')
  exact ⟨l, _, (Build.run_bind_ok hreplay).trans hagain⟩

theorem Graph.rebuild_convert {g : Graph β} {h : Graph α} (hids : g.ids.Nodup)
    {read : β → Except Fault α} (hread : g.convertM read = .ok h) :
    g.rebuild R read j = h.rebuild R .ok j := by
  unfold rebuild
  rw [Graph.replay_convert hids hread]

theorem Workspace.BlankAt.exists_rebuild (hu : u.BlankAt j) {g : Graph α} (hg : g.WellFormed)
    (hpos : g.positions.Nodup) (hne : g.primary.toList ++ g.secondary ≠ []) :
    ∃ primary secondary v e log, v.Ready ∧
      (∀ x ∈ primary.toList ++ secondary, x.index < (v.tape x.tape).size ∧ ∀ R' : Rules α,
        ((v.tape x.tape).unfolding x.index).settled R' = (v.tape x.tape).unfolding x.index) ∧
      (makeGraph primary secondary).run v = (.ok e, { v with log }) ∧
      (g.rebuild R .ok j).run u = (.ok e, { v with log }) := by
  obtain ⟨U, hU⟩ := hg.ranked.exists_solves (Node.term (α := α))
  obtain ⟨m, v, hreplay, h⟩ := hu.exists_replay (R := R) hg hpos hU
  obtain ⟨e, log, hrun, -⟩ := h.exists_makeGraph hg hne
  refine ⟨_, _, v, e, log, h.ready, ?_, hrun, (Build.run_bind_ok hreplay).trans hrun⟩
  rw [outputs_map, List.forall_mem_map]
  intro id hid
  have hdone := hg.output_mem id hid
  refine ⟨h.index_lt id hdone, fun R' => ?_⟩
  have htree : (v.tape j).unfolding (m.indexD id) = (U id).settled R := h.unfolding_eq id hdone
  change ((v.tape j).unfolding (m.indexD id)).settled R' = (v.tape j).unfolding (m.indexD id)
  rw [htree, Term.settled_settled]

end

/-- What is extracted from a tape that only constructors have grown is the same when it is rebuilt
on an empty tape, up to the length of the input vector: the same nodes under the same identifiers
and in the same order, the same edges, order and outputs. And a graph with outputs, however it was
given, is rebuilt as one that stays the same when it is rebuilt once more. -/
theorem Graph.rebuild_normalizes [Written β] :
    (∀ {R : Rules α} {k : Nat} {w w' : Workspace α} {primary : Option Handle}
      {secondary : List Handle} {g : Graph α}, w.Constructed R k →
      (∀ x ∈ primary.toList ++ secondary, x.tape = k ∧ x.index < (w.tape k).size) →
      (makeGraph primary secondary).run w = (.ok g, w') →
      ∀ (R' : Rules α) {u : Workspace α} {j : Nat}, u.BlankAt j →
        ∃ m v, (g.rebuild R' .ok j).run u = (.ok { g with numInputs := m }, v)) ∧
    ∀ {g : Graph β} {read : β → Except Fault α} {h : Graph α}, g.Assembled →
      g.convertM read = .ok h → g.primary.toList ++ g.secondary ≠ [] →
      ∀ (R : Rules α) {u : Workspace α} {j : Nat}, u.BlankAt j →
        ∃ e v, (g.rebuild R read j).run u = (.ok e, v) ∧
          ∀ (R' : Rules α) {u' : Workspace α} {j' : Nat}, u'.BlankAt j' →
            ∃ m v', (e.rebuild R' .ok j').run u' = (.ok { e with numInputs := m }, v') := by
  constructor
  · intro R k w w' primary secondary g hw hk hrun R' u j hu
    obtain ⟨hready, hfolded⟩ := hw.foldedAt
    refine exists_rebuild_of_settled hready (fun x hx => ?_) (fun x hx => ?_) hrun hu
    · obtain ⟨rfl, hindex⟩ := hk x hx
      exact hindex
    · obtain ⟨rfl, hindex⟩ := hk x hx
      exact hfolded.settled_unfolding (hready.valid _) R' hindex
  · intro g read h hg hread hne R u j hu
    have hsame := (exists_nodes_of_convertM hread).2
    have hne' : h.primary.toList ++ h.secondary ≠ [] := by
      rwa [congrArg Graph.primary hsame, congrArg Graph.secondary hsame]
    obtain ⟨primary, secondary, v, e, log, hv, hx, hrun, hrebuild⟩ :=
      hu.exists_rebuild (R := R) (hg.wellFormed.convert hread)
        (positions_of_convertM hread ▸ hg.nodup_positions) hne'
    rw [Graph.rebuild_convert hg.wellFormed.ids_nodup hread]
    refine ⟨e, _, hrebuild, fun R' u' j' hu' => ?_⟩
    exact exists_rebuild_of_settled hv (fun x hmem => (hx x hmem).1)
      (fun x hmem => (hx x hmem).2 R') hrun hu'

/-- The sum of an input and 2 on a constructed tape, and `x * x + x` as it was given. -/
theorem Graph.rebuild_normalizes_inputPlusTwo :
    (∃ (w w' v : Workspace Int) (x : Handle) (g : Graph Int) (m : Int),
      w.Constructed Graph.polynomials.rules w.active ∧ (makeGraph (some x) []).run w = (.ok g, w') ∧
        (g.rebuild Graph.polynomials.rules .ok 0).run {} = (.ok { g with numInputs := m }, v)) ∧
    ∃ (g e : Graph Int) (v v' : Workspace Int) (m : Int), g.nodes = Graph.squarePlusSelf ∧
      (g.rebuild Graph.polynomials.rules .ok 0).run {} = (.ok e, v) ∧
        (e.rebuild Graph.polynomials.rules .ok 0).run {} = (.ok { e with numInputs := m }, v') := by
  have hblank : ({} : Workspace Int).BlankAt 0 := ⟨Workspace.ready_start, Nat.zero_lt_one, rfl⟩
  constructor
  · obtain ⟨w, v, y, x, hy, hon, hx, hreached, htape, hindex⟩ :=
      exists_inputPlusTwo_on Graph.polynomials.rules
    have hv : v.Constructed Graph.polynomials.rules v.active := by
      have hinput := Workspace.Constructed.start.input (R := Graph.polynomials.rules)
        (k := v.active) (some 0) 3
      rw [hy] at hinput
      have hsum := hinput.construct (n := .binary .add (.handle y) (.number 2)) rfl hon
      rwa [hx] at hsum
    have hk : ∀ z ∈ (some x).toList ++ [], z.tape = v.active ∧ z.index < (v.tape v.active).size := by
      simp [htape, hindex]
    obtain ⟨g, log, hrun, -⟩ := exists_makeGraph (hreached.ready.valid v.active) (by simp) hk
    obtain ⟨m, u, hrebuild⟩ := (Graph.rebuild_normalizes (β := Int)).1 hv hk hrun
      Graph.polynomials.rules hblank
    exact ⟨v, _, u, x, g, m, hv, hrun, hrebuild⟩
  · obtain ⟨g, hassembled, hnodes, hprimary, -, -⟩ : ∃ g : Graph Int, g.Assembled ∧
        g.nodes = Graph.squarePlusSelf ∧ g.primary = some ("p" : Text) ∧ g.secondary = [] ∧
          g.numInputs = 1 :=
      Graph.listed_squarePlusSelf.exists_graph (by decide) (by decide) 1
    obtain ⟨e, v, hrun, hagain⟩ := Graph.rebuild_normalizes.2 hassembled g.convertM_ok
      (by simp [hprimary]) Graph.polynomials.rules hblank
    obtain ⟨m, v', hrun'⟩ := hagain Graph.polynomials.rules hblank
    exact ⟨g, e, v, v', m, hnodes, hrun, hrun'⟩

end ScalarGraph
