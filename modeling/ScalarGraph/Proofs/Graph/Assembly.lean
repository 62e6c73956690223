import ScalarGraph.Proofs.Graph.Naming
import ScalarGraph.Proofs.Graph.Order

/-! # What assembly checks

A graph that is assembled is well formed: its order lists every identifier once
and the operands of a node before it, and its outputs are listed. In the other
direction nodes with distinct identifiers and distinct positions, whose operands go
down in some rank, are assembled from their literals and edges as they are.
-/
namespace ScalarGraph
variable {α : Type}

namespace Graph

def ids (g : Graph α) : List Text := g.nodes.map (·.1)

structure WellFormed (g : Graph α) : Prop where
  ids_nodup : g.ids.Nodup
  order_perm : g.order.Perm g.ids
  operands_before : ∀ l₁ id l₂, g.order = l₁ ++ id :: l₂ →
    ∀ n, (id, n) ∈ g.nodes → ∀ c ∈ n.operands, c ∈ l₁
  primary_mem : ∀ id ∈ g.primary, id ∈ g.order
  secondary_mem : ∀ id ∈ g.secondary, id ∈ g.order

theorem WellFormed.output_mem {g : Graph α} (hg : g.WellFormed) :
    ∀ id ∈ g.primary.toList ++ g.secondary, id ∈ g.order := by
  intro id hid
  rcases List.mem_append.mp hid with hid | hid
  · exact hg.primary_mem id (Option.mem_toList.mp hid)
  · exact hg.secondary_mem id hid

/-- The graph is what some draft describes whose identifiers are distinct. -/
def Assembled [Written α] (g : Graph α) : Prop :=
  ∃ d : Draft α, d.ids.Nodup ∧ d.assemble = .ok g

end Graph

theorem firstViolation_eq_ok {vs : List (Option Violation)} :
    firstViolation vs = .ok () ↔ ∀ v ∈ vs, v = none := by
  unfold firstViolation
  cases h : vs.filterMap id with
  | nil => simpa [List.filterMap_eq_nil_iff] using h
  | cons v rest =>
    have hv : v ∈ vs.filterMap id := h ▸ List.mem_cons_self
    obtain ⟨o, ho, hov⟩ := List.mem_filterMap.mp hv
    simp only [reduceCtorEq, false_iff]
    intro hall
    rw [hall o ho] at hov
    cases hov

namespace Draft
variable {d : Draft α}

theorem check_eq_ok {γ : Type} {r : Except Violation γ} {c : γ} : check r = .ok c ↔ r = .ok c := by
  cases r <;> simp [check, Except.mapError]

theorem checkEnds_eq_ok :
    d.checkEnds = .ok () ↔ ∀ e ∈ d.edges, e.source ∈ d.ids ∧ e.target ∈ d.ids := by
  simp only [checkEnds, firstViolation_eq_ok, List.forall_mem_flatMap, List.forall_mem_map,
    Std.HashSet.contains_ofList]
  refine forall₂_congr fun e _ => ?_
  simp

theorem checkOutputs_eq_ok : d.checkOutputs = .ok () ↔
    (∀ id ∈ d.primary, id ∈ d.ids) ∧ ∀ id ∈ d.secondary, id ∈ d.ids := by
  simp only [checkOutputs, firstViolation_eq_ok, List.forall_mem_map, Std.HashSet.contains_ofList,
    List.forall_mem_append]
  simp

theorem mem_of_arranged? {l : Literal α} {named : List (Slot.Key × DraftEdge)} {xs : List Text}
    (h : arranged? l named = some xs) : ∀ x ∈ xs, ∃ p ∈ named, p.2.source = x := by
  simp only [arranged?] at h
  split at h
  · intro x hx
    have hsome : some x ∈ xs.map some := List.mem_map_of_mem hx
    rw [← of_list_mapM_eq_some h] at hsome
    obtain ⟨r, -, hr⟩ := List.mem_map.mp hsome
    obtain ⟨e, he, rfl⟩ := Option.map_eq_some_iff.mp hr
    obtain ⟨l₁, l₂, hl, -⟩ := List.lookup_eq_some_iff.mp he
    exact ⟨(.role r, e), by simp [hl], rfl⟩
  · cases h

theorem mem_of_arrange [Written α] {id : Text} {l : Literal α}
    {named : List (Slot.Key × DraftEdge)} {xs : List Text} (h : arrange id l named = .ok xs) :
    ∀ x ∈ xs, ∃ p ∈ named, p.2.source = x := by
  unfold arrange at h
  split at h
  · next he =>
    cases h
    exact mem_of_arranged? he
  · cases h

theorem order_eq_ok {order : List Text} (h : d.order = .ok order) :
    Order.sort d.ids (d.edges.map fun e => (e.source, e.target)) = .ok order := by
  unfold Draft.order at h
  split at h
  · next he =>
    cases h
    exact he
  · cases h
  · cases h

theorem node?_eq_ok [Written α] {ι : Type} {l : Literal α} {xs : List ι} {n : Node α ι}
    (h : l.node? xs = .ok n) : n.operands = xs := by
  obtain ⟨o, -, h⟩ := bind_eq_ok.mp h
  split at h
  · next m hm =>
    cases h
    exact (Node.of_node?_eq_some hm).2
  · cases h

theorem nodes_sound [Written α] {named : Named} (hnamed : d.named = .ok named)
    {rows : List (Text × Literal α × List Text)} (hrows : d.rows named = .ok rows)
    {nodes : List (Text × Node α Text)} (hnodes : nodesOf rows = .ok nodes) :
    nodes.map (·.1) = d.ids ∧
      ∀ p ∈ nodes, ∀ c ∈ p.2.operands, ∃ e ∈ d.edges, e.source = c ∧ e.target = p.1 := by
  have hids : nodes.map (·.1) = rows.map (·.1) := map_of_mapM_eq_ok hnodes fun r n h => by
    obtain ⟨m, -, ⟨⟩⟩ := bind_eq_ok.mp h
    rfl
  have hids' : rows.map (·.1) = d.nodes.map (·.1) := map_of_mapM_eq_ok hrows fun p r h => by
    obtain ⟨xs, -, ⟨⟩⟩ := bind_eq_ok.mp h
    rfl
  refine ⟨hids.trans hids', fun p hp c hc => ?_⟩
  obtain ⟨r, hr, hrp⟩ := of_list_mapM_eq_ok hnodes p hp
  obtain ⟨n, hn, ⟨⟩⟩ := bind_eq_ok.mp hrp
  obtain ⟨q, -, hqr⟩ := of_list_mapM_eq_ok hrows r hr
  obtain ⟨xs, hxs, ⟨⟩⟩ := bind_eq_ok.mp hqr
  rw [node?_eq_ok hn] at hc
  obtain ⟨e, he, rfl⟩ := mem_of_arrange hxs c hc
  obtain ⟨hmem, htarget, -⟩ := (mem_named hnamed).mp he
  exact ⟨e.2, hmem, rfl, htarget⟩

end Draft

/-- What the checks give for a draft that is assembled. -/
structure Draft.Assembles [Written α] (d : Draft α) (ps : List (Nat × Text)) (order : List Text)
    (named : Named) (rows : List (Text × Literal α × List Text)) (nodes : List (Text × Node α Text)) :
    Prop where
  ends_ok : d.checkEnds = .ok ()
  outputs_ok : d.checkOutputs = .ok ()
  positions_ok : d.positions = .ok ps
  order_ok : d.order = .ok order
  named_ok : d.named = .ok named
  rows_ok : d.rows named = .ok rows
  nodes_ok : nodesOf rows = .ok nodes

/-- A draft is assembled where all of its checks succeed, and the graph is made of their results. -/
theorem Draft.assemble_eq_ok [Written α] {d : Draft α} {g : Graph α} : d.assemble = .ok g ↔
    ∃ ps order named rows nodes, d.Assembles ps order named rows nodes ∧
      g = { nodes, edges := d.edges.filterMap DraftEdge.edge?, order, primary := d.primary,
            secondary := d.secondary, numInputs := d.vectorLength ps } := by
  constructor
  · intro h
    unfold assemble frame at h
    obtain ⟨⟨ps, order⟩, hframe, h⟩ := bind_eq_ok.mp h
    obtain ⟨named, hnamed, h⟩ := bind_eq_ok.mp h
    obtain ⟨rows, hrows, h⟩ := bind_eq_ok.mp h
    obtain ⟨nodes, hnodes, h⟩ := bind_eq_ok.mp h
    obtain ⟨u, hends, hframe⟩ := bind_eq_ok.mp hframe
    obtain ⟨u', houtputs, hframe⟩ := bind_eq_ok.mp hframe
    obtain ⟨qs, hpositions, hframe⟩ := bind_eq_ok.mp hframe
    obtain ⟨ids, horder, hframe⟩ := bind_eq_ok.mp hframe
    cases hframe
    cases h
    exact ⟨ps, order, named, rows, nodes,
      ⟨check_eq_ok.mp hends, check_eq_ok.mp houtputs, check_eq_ok.mp hpositions, horder, hnamed,
        check_eq_ok.mp hrows, check_eq_ok.mp hnodes⟩, rfl⟩
  · rintro ⟨ps, order, named, rows, nodes, h, rfl⟩
    have hframe : d.frame = .ok (ps, order) := by
      simp only [frame, check, h.ends_ok, h.outputs_ok, h.positions_ok, h.order_ok]
      rfl
    refine bind_eq_ok.mpr ⟨_, hframe, bind_eq_ok.mpr ⟨named, h.named_ok, bind_eq_ok.mpr ⟨rows,
      check_eq_ok.mpr h.rows_ok, bind_eq_ok.mpr ⟨nodes, check_eq_ok.mpr h.nodes_ok, rfl⟩⟩⟩⟩

theorem Draft.exists_frame {d : Draft α} (hids : d.ids.Nodup)
    (hends : ∀ e ∈ d.edges, e.source ∈ d.ids ∧ e.target ∈ d.ids)
    (houtputs : (∀ id ∈ d.primary, id ∈ d.ids) ∧ ∀ id ∈ d.secondary, id ∈ d.ids)
    {ps : List (Nat × Text)} (hpositions : d.positions = .ok ps) {rank : Text → Nat}
    (hrank : ∀ e ∈ d.edges, rank e.source < rank e.target) :
    ∃ order, d.frame = .ok (ps, order) := by
  have hsources : ∀ e ∈ d.edges.map fun e => (e.source, e.target), rank e.1 < rank e.2 :=
    List.forall_mem_map.mpr hrank
  obtain ⟨order, hsort⟩ := Order.exists_sort hids (List.forall_mem_map.mpr hends) hsources
  have horder : d.order = .ok order := by
    unfold Draft.order
    rw [hsort]
  refine ⟨order, ?_⟩
  simp only [frame, check, checkEnds_eq_ok.mpr hends, checkOutputs_eq_ok.mpr houtputs, hpositions,
    horder]
  rfl

/-- The length of the input vector has no part in what is assembled otherwise. -/
theorem Draft.assemble_withLength [Written α] {d : Draft α} {g : Graph α} (h : d.assemble = .ok g)
    (n : Option Int) : ∃ m : Int, ({ d with numInputs := n } : Draft α).assemble =
      .ok { g with numInputs := m } := by
  obtain ⟨ps, order, named, rows, nodes, hd, rfl⟩ := assemble_eq_ok.mp h
  refine ⟨_, assemble_eq_ok.mpr ⟨ps, order, named, rows, nodes, ?_, rfl⟩⟩
  exact ⟨hd.ends_ok, hd.outputs_ok, hd.positions_ok, hd.order_ok, hd.named_ok, hd.rows_ok,
    hd.nodes_ok⟩

theorem Graph.Assembled.wellFormed [Written α] {g : Graph α} (hg : g.Assembled) :
    g.WellFormed := by
  obtain ⟨d, hids, h⟩ := hg
  obtain ⟨ps, order, named, rows, nodes, hd, rfl⟩ := Draft.assemble_eq_ok.mp h
  obtain ⟨hprimary, hsecondary⟩ := Draft.checkOutputs_eq_ok.mp hd.outputs_ok
  obtain ⟨hperm, hprec⟩ := Order.sort_spec hids (Draft.order_eq_ok hd.order_ok)
  obtain ⟨hnodeIds, hoperands⟩ := Draft.nodes_sound hd.named_ok hd.rows_ok hd.nodes_ok
  refine ⟨?_, ?_, fun l₁ id l₂ hl n hn c hc => ?_, fun id hid => ?_, fun id hid => ?_⟩
  · simpa [Graph.ids, hnodeIds] using hids
  · simpa [Graph.ids, hnodeIds] using hperm
  · obtain ⟨e, he, rfl, htarget⟩ := hoperands (id, n) hn c hc
    simpa using hprec l₁ id l₂ hl (e.source, e.target) (List.mem_map_of_mem he) htarget
  · exact hperm.mem_iff.mpr (hprimary id hid)
  · exact hperm.mem_iff.mpr (hsecondary id hid)

end ScalarGraph
