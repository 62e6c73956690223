import ScalarGraph.Proofs.Graph.Redraft

/-! # Operands and edges

In a graph that is assembled the operand in a slot of a node is the source of the edge that names
the slot, and no other edge leads to the node. So the operands and the edges are two forms of the
same data.
-/
namespace ScalarGraph
variable {α : Type}

namespace Draft

/-- The operands are paired with the slots that they are named for. -/
theorem mem_zip_of_arranged? {l : Literal α} {named : List (Slot.Key × DraftEdge)} {xs : List Text}
    (hnodup : (named.map Prod.fst).Nodup) (h : arranged? l named = some xs) {c : Text} {r : Role} :
    (c, r) ∈ xs.zip (l.roles xs.length) ↔ ∃ e, (.role r, e) ∈ named ∧ e.source = c := by
  have hperm := perm_of_arranged? h
  simp only [arranged?] at h
  split at h
  case isFalse => cases h
  case isTrue hlength =>
  have hsome := of_list_mapM_eq_some h
  have hxs : xs.length = named.length := by
    have hlen := congrArg List.length hsome
    rw [List.length_map, List.length_map, hlength] at hlen
    exact hlen.symm
  rw [hxs, mem_zip_of_map_eq hsome]
  constructor
  · rintro ⟨-, hr⟩
    obtain ⟨e, he, rfl⟩ := Option.map_eq_some_iff.mp hr
    obtain ⟨l₁, l₂, hl, -⟩ := List.lookup_eq_some_iff.mp he
    exact ⟨e, by simp [hl], rfl⟩
  · rintro ⟨e, he, rfl⟩
    refine ⟨?_, by rw [lookup_of_mem hnodup he, Option.map_some]⟩
    have hmem : Slot.Key.role r ∈ (l.roles named.length).map Slot.Key.role :=
      hperm.mem_iff.mpr (List.mem_map_of_mem (f := Prod.fst) he)
    obtain ⟨s, hs, hsr⟩ := List.mem_map.mp hmem
    exact Slot.Key.role.inj hsr ▸ hs

theorem exists_arranged? [Written α] {id : Text} {l : Literal α}
    {named : List (Slot.Key × DraftEdge)} {xs : List Text} (h : arrange id l named = .ok xs) :
    arranged? l named = some xs := by
  unfold arrange at h
  split at h
  · next he =>
    cases h
    exact he
  · cases h

theorem exists_arrange [Written α] {d : Draft α} {named : Named}
    {rows : List (Text × Literal α × List Text)} (hrows : d.rows named = .ok rows)
    {nodes : List (Text × Node α Text)} (hnodes : nodesOf rows = .ok nodes) {id : Text}
    {n : Node α Text} (hn : (id, n) ∈ nodes) :
    arranged? n.op.literal (named.getD id []) = some n.operands := by
  obtain ⟨r, hr, hrn⟩ := of_list_mapM_eq_ok hnodes _ hn
  obtain ⟨m, hm, hmn⟩ := bind_eq_ok.mp hrn
  cases hmn
  obtain ⟨p, -, hpr⟩ := of_list_mapM_eq_ok hrows r hr
  obtain ⟨xs, hxs, hxr⟩ := bind_eq_ok.mp hpr
  cases hxr
  rw [node?_eq_ok hm, Literal.literal_of_node? hm]
  exact exists_arranged? hxs

end Draft

namespace Graph

/-- The operand in each slot of a node is the source of the edge that names the slot. -/
def Wired (g : Graph α) : Prop :=
  ∀ id n, (id, n) ∈ g.nodes → ∀ c r, (c, r) ∈ n.edges ↔ ⟨c, id, r⟩ ∈ g.edges

end Graph

theorem Draft.Given.wired [Written α] {d : Draft α} (hd : d.Given) {g : Graph α}
    (h : d.assemble = .ok g) : g.Wired := by
  obtain ⟨ps, order, named, rows, nodes, hassembles, rfl⟩ := assemble_eq_ok.mp h
  intro id n hn c r
  have harranged := exists_arrange hassembles.rows_ok hassembles.nodes_ok hn
  have hkeys := nodup_named hassembles.named_ok id
  rw [Node.edges, ← Op.literal_roles, mem_zip_of_arranged? hkeys harranged]
  constructor
  · rintro ⟨e, he, rfl⟩
    obtain ⟨hmem, rfl, hk⟩ := (mem_named hassembles.named_ok).mp he
    obtain ⟨v, hv⟩ := hd.slots e hmem
    rw [hv] at hk
    have hslot : e.slot = .role r := hv.trans (Slot.eq_role_of_key? hk)
    refine List.mem_filterMap.mpr ⟨e, hmem, ?_⟩
    rw [DraftEdge.edge?, hslot]
  · intro he
    obtain ⟨e, hmem, hedge⟩ := List.mem_filterMap.mp he
    unfold DraftEdge.edge? at hedge
    split at hedge
    · next s hs =>
      cases hedge
      refine ⟨e, (mem_named hassembles.named_ok).mpr ⟨hmem, rfl, ?_⟩, rfl⟩
      rw [hs, Slot.key?]
    · cases hedge

end ScalarGraph
