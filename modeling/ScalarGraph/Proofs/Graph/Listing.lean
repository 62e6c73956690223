import ScalarGraph.Proofs.Graph.Assembly

/-! # Graphs of listed nodes

Nodes that are listed with their operands make up a draft of literals and edges. It is
assembled to the graph of these nodes where their identifiers and positions are distinct
and their operands are listed and go down in some rank.
-/
namespace ScalarGraph
variable {α ι κ : Type}

theorem Role.nodup_slots (arity? : Option Nat) (n : Nat) : (Role.slots arity? n).Nodup := by
  unfold Role.slots
  split
  · decide
  · decide
  · decide
  · decide
  · exact List.nodup_range.map fun i j h => Role.nth.inj h

namespace Node

theorem length_roles (n : Node α ι) : (n.op.roles n.operands.length).length = n.operands.length := by
  cases n <;> simp [op, operands, Op.roles, Op.arity?, Role.slots]

@[simp] theorem edges_fst (n : Node α ι) : n.edges.map Prod.fst = n.operands :=
  List.map_fst_zip (Nat.le_of_eq n.length_roles.symm)

@[simp] theorem edges_snd (n : Node α ι) : n.edges.map Prod.snd = n.op.roles n.operands.length :=
  List.map_snd_zip (Nat.le_of_eq n.length_roles)

@[simp] theorem length_edges (n : Node α ι) : n.edges.length = n.operands.length := by
  rw [← n.edges_fst, List.length_map]

theorem nodup_edges_snd (n : Node α ι) : (n.edges.map Prod.snd).Nodup := by
  rw [edges_snd]
  exact Role.nodup_slots _ _

theorem edges_map (f : ι → κ) (n : Node α ι) : (n.map f).edges = n.edges.map (Prod.map f id) := by
  simp only [edges, operands_map, op_map, List.length_map, List.zip_map_left]

end Node

def Edge.draft (e : Edge) : DraftEdge := ⟨e.source, e.target, .role e.role⟩

def Node.edgesTo (id : Text) (n : Node α Text) : List Edge := n.edges.map fun e => ⟨e.1, id, e.2⟩

def edgesOf (nodes : List (Text × Node α Text)) : List Edge := nodes.flatMap fun p => p.2.edgesTo p.1

theorem Node.target_of_mem_edgesTo {id : Text} {n : Node α Text} {e : Edge}
    (h : e ∈ n.edgesTo id) : e.target = id ∧ e.source ∈ n.operands := by
  obtain ⟨p, hp, rfl⟩ := List.mem_map.mp h
  exact ⟨rfl, n.edges_fst ▸ List.mem_map_of_mem hp⟩

theorem filter_edgesOf_of_notMem {nodes : List (Text × Node α Text)} {id : Text}
    (h : id ∉ nodes.map (·.1)) : (edgesOf nodes).filter (·.target == id) = [] := by
  rw [List.filter_eq_nil_iff]
  intro e he hid
  obtain ⟨p, hp, hep⟩ := List.mem_flatMap.mp he
  have htarget := (Node.target_of_mem_edgesTo hep).1
  exact h (List.mem_map.mpr ⟨p, hp, htarget.symm.trans (eq_of_beq hid)⟩)

theorem filter_edgesOf {nodes : List (Text × Node α Text)} (hids : (nodes.map (·.1)).Nodup)
    {id : Text} {n : Node α Text} (h : (id, n) ∈ nodes) :
    (edgesOf nodes).filter (·.target == id) = n.edgesTo id := by
  induction nodes with
  | nil => cases h
  | cons p nodes ih =>
    obtain ⟨hp, hids⟩ := List.nodup_cons.mp hids
    have hsplit : edgesOf (p :: nodes) = p.2.edgesTo p.1 ++ edgesOf nodes := rfl
    rw [hsplit, List.filter_append]
    rcases List.mem_cons.mp h with rfl | h
    · have hall : (n.edgesTo id).filter (·.target == id) = n.edgesTo id :=
        List.filter_eq_self.mpr fun e he => by simp [(Node.target_of_mem_edgesTo he).1]
      rw [hall, filter_edgesOf_of_notMem hp, List.append_nil]
    · have hnone : (p.2.edgesTo p.1).filter (·.target == id) = [] := by
        rw [List.filter_eq_nil_iff]
        intro e he hid
        have htarget := (Node.target_of_mem_edgesTo he).1
        have hpid : p.1 = id := htarget.symm.trans (eq_of_beq hid)
        exact hp (List.mem_map.mpr ⟨_, h, hpid.symm⟩)
      rw [hnone, List.nil_append]
      exact ih hids h

namespace Draft

def keyed (e : Edge) : Slot.Key × DraftEdge := (.role e.role, e.draft)

theorem filterMap_keyed?_draft (es : List Edge) (id : Text) :
    ((es.map Edge.draft).filter (·.target == id)).filterMap keyed? =
      (es.filter (·.target == id)).map keyed := by
  have hkeyed : keyed? ∘ Edge.draft = some ∘ keyed := by
    funext e
    rfl
  rw [List.filter_map, List.filterMap_map, hkeyed, List.filterMap_eq_map]
  rfl

theorem nodup_keyed_edgesTo (id : Text) (n : Node α Text) :
    (((n.edgesTo id).map keyed).map Prod.fst).Nodup := by
  have hkeys : ((n.edgesTo id).map keyed).map Prod.fst = (n.edges.map Prod.snd).map Slot.Key.role := by
    simp only [Node.edgesTo, keyed, List.map_map, Function.comp_def]
  rw [hkeys]
  exact n.nodup_edges_snd.map fun r s h => Slot.Key.role.inj h

theorem arrange_edgesTo [Written α] (id : Text) (n : Node α Text) :
    arrange id n.op.literal ((n.edgesTo id).map keyed) = .ok n.operands := by
  have hlen : ((n.edgesTo id).map keyed).length = n.operands.length := by simp [Node.edgesTo]
  have hfind : ∀ e ∈ n.edges, (((n.edgesTo id).map keyed).lookup (.role e.2)).map DraftEdge.source =
      some e.1 := by
    intro e he
    have hmem : keyed ⟨e.1, id, e.2⟩ ∈ (n.edgesTo id).map keyed :=
      List.mem_map_of_mem (List.mem_map.mpr ⟨e, he, rfl⟩)
    rw [lookup_of_mem (nodup_keyed_edgesTo id n) hmem]
    rfl
  have harranged : arranged? n.op.literal ((n.edgesTo id).map keyed) = some n.operands := by
    simp only [arranged?, hlen, Op.literal_roles, n.length_roles, if_true]
    rw [← n.edges_snd, List.mapM_map, ← n.edges_fst]
    exact mapM_list_eq hfind
  simp [arrange, harranged]

theorem exists_positions {nodes : List (Text × Node α Text)} {seen : List (Nat × Text)}
    (h : (seen.map Prod.fst ++ nodes.filterMap fun p => p.2.position?).Nodup) :
    ∃ ps, (nodes.map fun p => (p.1, p.2.op.literal)).foldlM notePosition seen = .ok ps := by
  induction nodes generalizing seen with
  | nil => exact ⟨seen, rfl⟩
  | cons p nodes ih =>
    rw [List.map_cons, List.foldlM_cons]
    cases hp : p.2.position? with
    | none =>
      have hnote : notePosition seen (p.1, p.2.op.literal) = .ok seen := by
        obtain ⟨id, n⟩ := p
        cases n <;> simp_all [notePosition, Node.op, Op.literal, Node.position?]
      rw [hnote]
      exact ih (by simpa [List.filterMap_cons, hp] using h)
    | some k =>
      rw [List.filterMap_cons, hp] at h
      have hfree : seen.lookup k = none := lookup_eq_none_of_notMem fun hk =>
        (List.nodup_append.mp h).2.2 k hk k List.mem_cons_self rfl
      have hnote : notePosition seen (p.1, p.2.op.literal) = .ok (seen ++ [(k, p.1)]) := by
        obtain ⟨s, hs⟩ := Node.eq_input_of_position? hp
        simp [hs, notePosition, Node.op, Op.literal, hfree]
      rw [hnote]
      exact ih (by simpa using h)

/-- The draft with a literal for every node and an edge for every operand. -/
def ofNodes (nodes : List (Text × Node α Text)) (primary : Option Text) (secondary : List Text)
    (numInputs : Option Int) : Draft α where
  nodes := nodes.map fun p => (p.1, p.2.op.literal)
  edges := (edgesOf nodes).map Edge.draft
  primary := primary
  secondary := secondary
  numInputs := numInputs

variable {nodes : List (Text × Node α Text)} {primary : Option Text} {secondary : List Text}
variable {numInputs : Option Int}

@[simp] theorem ids_ofNodes : (ofNodes nodes primary secondary numInputs).ids = nodes.map (·.1) := by
  simp [ids, ofNodes]

theorem edge?_ofNodes :
    (ofNodes nodes primary secondary numInputs).edges.filterMap DraftEdge.edge? = edgesOf nodes := by
  have hedge : DraftEdge.edge? ∘ Edge.draft = some := by
    funext e
    rfl
  simp only [ofNodes, List.filterMap_map, hedge, List.filterMap_some]

theorem exists_named_ofNodes (hids : (nodes.map (·.1)).Nodup) :
    ∃ named, (ofNodes nodes primary secondary numInputs).named = .ok named ∧
      ∀ p ∈ nodes, named.getD p.1 [] = (p.2.edgesTo p.1).map keyed := by
  have hkeyed (id : Text) : ((ofNodes nodes primary secondary numInputs).edges.filter
      (·.target == id)).filterMap keyed? = ((edgesOf nodes).filter (·.target == id)).map keyed :=
    filterMap_keyed?_draft _ id
  obtain ⟨named, hnamed⟩ : ∃ named, (ofNodes nodes primary secondary numInputs).named = .ok named := by
    refine exists_named_iff.mpr ⟨List.forall_mem_map.mpr fun e _ => ⟨_, rfl⟩, fun id => ?_⟩
    rw [hkeyed]
    by_cases hid : id ∈ nodes.map (·.1)
    · obtain ⟨p, hp, rfl⟩ := List.mem_map.mp hid
      rw [filter_edgesOf hids hp]
      exact nodup_keyed_edgesTo p.1 p.2
    · simp [filter_edgesOf_of_notMem hid]
  refine ⟨named, hnamed, fun p hp => ?_⟩
  rw [getD_named hnamed, hkeyed, filter_edgesOf hids hp]

theorem rows_ofNodes [Written α] {named : Named}
    (h : ∀ p ∈ nodes, named.getD p.1 [] = (p.2.edgesTo p.1).map keyed) :
    (ofNodes nodes primary secondary numInputs).rows named =
      .ok (nodes.map fun p => (p.1, p.2.op.literal, p.2.operands)) := by
  unfold rows
  rw [show (ofNodes nodes primary secondary numInputs).nodes =
    nodes.map fun p => (p.1, p.2.op.literal) from rfl, List.mapM_map]
  refine mapM_list_eq fun p hp => ?_
  simp only [Function.comp_apply, h p hp, arrange_edgesTo]
  rfl

theorem nodesOf_rows [Written α] (nodes : List (Text × Node α Text)) :
    nodesOf (nodes.map fun p => (p.1, p.2.op.literal, p.2.operands)) = .ok nodes := by
  unfold nodesOf
  rw [List.mapM_map]
  have hnode : nodes.mapM ((fun r : Text × Literal α × List Text =>
      return (r.1, ← r.2.1.node? r.2.2)) ∘ fun p => (p.1, p.2.op.literal, p.2.operands)) =
        (.ok (nodes.map id) : Except Violation _) :=
    mapM_list_eq fun p _ => by
      simp only [Function.comp_apply, Node.literal_node?]
      rfl
  rw [hnode, List.map_id]

/-- The conditions under which listed nodes are the nodes of a graph. -/
structure Listed (nodes : List (Text × Node α Text)) (rank : Text → Nat) : Prop where
  ids_nodup : (nodes.map (·.1)).Nodup
  positions_nodup : (nodes.filterMap fun p => p.2.position?).Nodup
  operand_mem : ∀ p ∈ nodes, ∀ c ∈ p.2.operands, c ∈ nodes.map (·.1)
  operand_rank : ∀ p ∈ nodes, ∀ c ∈ p.2.operands, rank c < rank p.1

theorem Listed.edge {rank : Text → Nat} (h : Listed nodes rank) : ∀ e ∈ edgesOf nodes,
    (e.source ∈ nodes.map (·.1) ∧ e.target ∈ nodes.map (·.1)) ∧ rank e.source < rank e.target := by
  intro e he
  obtain ⟨p, hp, hep⟩ := List.mem_flatMap.mp he
  obtain ⟨htarget, hsource⟩ := Node.target_of_mem_edgesTo hep
  have hmem : e.target ∈ nodes.map (·.1) := by
    rw [htarget]
    exact List.mem_map_of_mem hp
  exact ⟨⟨h.operand_mem p hp e.source hsource, hmem⟩, htarget ▸ h.operand_rank p hp e.source hsource⟩

theorem frame_ofNodes {rank : Text → Nat} (h : Listed nodes rank)
    (hprimary : ∀ id ∈ primary, id ∈ nodes.map (·.1))
    (hsecondary : ∀ id ∈ secondary, id ∈ nodes.map (·.1)) :
    ∃ ps order, (ofNodes nodes primary secondary numInputs).frame = .ok (ps, order) := by
  have hids : (ofNodes nodes primary secondary numInputs).ids = nodes.map (·.1) := ids_ofNodes
  have hedges (e : DraftEdge) (he : e ∈ (ofNodes nodes primary secondary numInputs).edges) :
      (e.source ∈ nodes.map (·.1) ∧ e.target ∈ nodes.map (·.1)) ∧ rank e.source < rank e.target := by
    obtain ⟨e', he', rfl⟩ := List.mem_map.mp he
    exact h.edge e' he'
  obtain ⟨ps, hps⟩ : ∃ ps, (ofNodes nodes primary secondary numInputs).positions = .ok ps :=
    exists_positions (by simpa using h.positions_nodup)
  refine ⟨ps, exists_frame ?_ ?_ ?_ hps fun e he => (hedges e he).2⟩
  · rw [hids]
    exact h.ids_nodup
  · rw [hids]
    exact fun e he => (hedges e he).1
  · rw [hids]
    exact ⟨hprimary, hsecondary⟩

/-- Listed nodes are assembled as they are. -/
theorem assemble_ofNodes [Written α] (numInputs : Option Int) {rank : Text → Nat}
    (h : Listed nodes rank)
    (hprimary : ∀ id ∈ primary, id ∈ nodes.map (·.1))
    (hsecondary : ∀ id ∈ secondary, id ∈ nodes.map (·.1)) :
    ∃ g, (ofNodes nodes primary secondary numInputs).assemble = .ok g ∧ g.nodes = nodes ∧
      g.edges = edgesOf nodes ∧ g.primary = primary ∧ g.secondary = secondary ∧
      ∀ m ∈ numInputs, g.numInputs = m := by
  obtain ⟨ps, order, hframe⟩ : ∃ ps order,
      (ofNodes nodes primary secondary numInputs).frame = .ok (ps, order) :=
    frame_ofNodes h hprimary hsecondary
  obtain ⟨named, hnamed, hget⟩ : ∃ named,
      (ofNodes nodes primary secondary numInputs).named = .ok named ∧
        ∀ p ∈ nodes, named.getD p.1 [] = (p.2.edgesTo p.1).map keyed :=
    exists_named_ofNodes h.ids_nodup
  refine ⟨{ nodes, edges := edgesOf nodes, order, primary, secondary,
            numInputs := (ofNodes nodes primary secondary numInputs).vectorLength ps },
    ?_, rfl, rfl, rfl, rfl, fun m hm => ?_⟩
  · refine bind_eq_ok.mpr ⟨_, hframe, bind_eq_ok.mpr ⟨named, hnamed, bind_eq_ok.mpr ⟨_,
      check_eq_ok.mpr (rows_ofNodes hget), bind_eq_ok.mpr ⟨nodes, check_eq_ok.mpr (nodesOf_rows nodes),
        ?_⟩⟩⟩⟩
    rw [edge?_ofNodes]
    rfl
  · simp [vectorLength, ofNodes, Option.mem_def.mp hm]

theorem Listed.exists_graph [Written α] {rank : Text → Nat} (h : Listed nodes rank)
    (hprimary : ∀ id ∈ primary, id ∈ nodes.map (·.1))
    (hsecondary : ∀ id ∈ secondary, id ∈ nodes.map (·.1)) (m : Int) :
    ∃ g : Graph α, g.Assembled ∧ g.nodes = nodes ∧ g.primary = primary ∧
      g.secondary = secondary ∧ g.numInputs = m := by
  obtain ⟨g, hg, hnodes, -, hp, hs, hnum⟩ := assemble_ofNodes (some m) h hprimary hsecondary
  refine ⟨g, ⟨_, ?_, hg⟩, hnodes, hp, hs, hnum m rfl⟩
  rw [ids_ofNodes]
  exact h.ids_nodup

end Draft
end ScalarGraph
