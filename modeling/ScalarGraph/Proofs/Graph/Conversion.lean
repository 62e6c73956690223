import ScalarGraph.Proofs.Graph.Replay

/-! # Graphs over other numbers

Reading the numbers of a graph as numbers of another type keeps its identifiers, operands and
positions. A graph is replayed as the graph of the numbers that are read.
-/
namespace ScalarGraph
variable {α β ι κ : Type}

namespace Node

theorem of_convertM_eq_ok {ε : Type} {read : β → Except ε α} {n : Node β ι} {m : Node α ι}
    (h : n.convertM read = .ok m) : m.operands = n.operands ∧ m.position? = n.position? := by
  cases n with
  | const v =>
    obtain ⟨x, -, ⟨⟩⟩ := bind_eq_ok.mp h
    exact ⟨rfl, rfl⟩
  | input p s =>
    obtain ⟨x, -, ⟨⟩⟩ := bind_eq_ok.mp h
    exact ⟨rfl, rfl⟩
  | _ =>
    cases h
    exact ⟨rfl, rfl⟩

@[simp] theorem convertM_ok {ε : Type} (n : Node α ι) :
    n.convertM (m := Except ε) .ok = .ok n := by
  cases n <;> rfl

end Node

namespace Graph

theorem convertM_ok {ε : Type} (g : Graph α) : g.convertM (m := Except ε) .ok = .ok g := by
  have hnodes : g.nodes.mapM (fun p => do return (p.1, ← p.2.convertM .ok)) =
      (.ok (g.nodes.map id) : Except ε _) :=
    mapM_list_eq fun p _ => by
      rw [Node.convertM_ok]
      rfl
  unfold convertM
  rw [hnodes, List.map_id]
  rfl

variable {ε : Type} {read : β → Except ε α} {g : Graph β} {h : Graph α}

/-- The nodes of a graph that is read are what is read of the nodes. -/
theorem exists_nodes_of_convertM (hread : g.convertM read = .ok h) :
    g.nodes.mapM (fun p => do return (p.1, ← p.2.convertM read)) = .ok h.nodes ∧
      h = { nodes := h.nodes, edges := g.edges, order := g.order, primary := g.primary,
            secondary := g.secondary, numInputs := g.numInputs } := by
  obtain ⟨nodes, hnodes, ⟨⟩⟩ := bind_eq_ok.mp hread
  exact ⟨hnodes, rfl⟩

theorem exists_net_of_convertM (hread : g.convertM read = .ok h) {id : Text} {n : Node β Text}
    (hn : g.net id n) : ∃ m, h.net id m ∧ n.convertM read = .ok m := by
  obtain ⟨p, hp, hnp⟩ := exists_of_list_mapM_eq_ok (exists_nodes_of_convertM hread).1 _ hn
  obtain ⟨m, hm, ⟨⟩⟩ := bind_eq_ok.mp hnp
  exact ⟨m, hp, hm⟩

theorem net_of_convertM (hread : g.convertM read = .ok h) {id : Text} {m : Node α Text}
    (hm : h.net id m) : ∃ n, g.net id n ∧ n.convertM read = .ok m := by
  obtain ⟨p, hp, hpm⟩ := of_list_mapM_eq_ok (exists_nodes_of_convertM hread).1 _ hm
  obtain ⟨m', hm', ⟨⟩⟩ := bind_eq_ok.mp hpm
  exact ⟨p.2, hp, hm'⟩

theorem ids_of_convertM (hread : g.convertM read = .ok h) : h.ids = g.ids :=
  map_of_mapM_eq_ok (exists_nodes_of_convertM hread).1 fun p q hq => by
    obtain ⟨m, -, ⟨⟩⟩ := bind_eq_ok.mp hq
    rfl

theorem positions_of_convertM (hread : g.convertM read = .ok h) : h.positions = g.positions := by
  have hposition : h.nodes.map (fun p => p.2.position?) = g.nodes.map fun p => p.2.position? :=
    map_of_mapM_eq_ok (exists_nodes_of_convertM hread).1 fun p q hq => by
      obtain ⟨m, hm, ⟨⟩⟩ := bind_eq_ok.mp hq
      exact (Node.of_convertM_eq_ok hm).2
  have hfilter := congrArg (List.filterMap id) hposition
  rwa [List.filterMap_map, List.filterMap_map] at hfilter

theorem WellFormed.convert (hg : g.WellFormed) (hread : g.convertM read = .ok h) : h.WellFormed := by
  have hids := ids_of_convertM hread
  obtain ⟨-, hsame⟩ := exists_nodes_of_convertM hread
  have horder : h.order = g.order := congrArg Graph.order hsame
  have hprimary : h.primary = g.primary := congrArg Graph.primary hsame
  have hsecondary : h.secondary = g.secondary := congrArg Graph.secondary hsame
  constructor
  case ids_nodup => exact hids ▸ hg.ids_nodup
  case order_perm =>
    rw [horder, hids]
    exact hg.order_perm
  case operands_before =>
    intro l₁ id l₂ hl m hm c hc
    obtain ⟨n, hn, hnm⟩ := net_of_convertM hread hm
    rw [(Node.of_convertM_eq_ok hnm).1] at hc
    exact hg.operands_before l₁ id l₂ (horder ▸ hl) n hn c hc
  case primary_mem =>
    rw [hprimary, horder]
    exact hg.primary_mem
  case secondary_mem =>
    rw [hsecondary, horder]
    exact hg.secondary_mem

end Graph

section
variable {f : β → α}

def Node.embed (f : β → α) (n : Node β ι) : Node α ι := Id.run (n.convertM fun x => pure (f x))

/-- The same graph with the images of its numbers. -/
def Graph.embed (f : β → α) (g : Graph β) : Graph α := Id.run (g.convertM fun x => pure (f x))

namespace Node

theorem operands_embed (f : β → α) (n : Node β ι) : (n.embed f).operands = n.operands := by
  cases n <;> rfl

theorem position?_embed (f : β → α) (n : Node β ι) : (n.embed f).position? = n.position? := by
  cases n <;> rfl

theorem map_embed (f : β → α) (r : ι → κ) (n : Node β ι) : (n.map r).embed f = (n.embed f).map r := by
  cases n <;> rfl

theorem convertM_embed {m : Type → Type} [Monad m] [LawfulMonad m] (f : β → α) (n : Node β ι) :
    n.convertM (m := m) (fun x => pure (f x)) = pure (n.embed f) := by
  cases n <;> simp [embed, convertM]

end Node

namespace Graph
variable {g : Graph β}

theorem convertM_embed {m : Type → Type} [Monad m] [LawfulMonad m] (f : β → α) (g : Graph β) :
    g.convertM (m := m) (fun x => pure (f x)) =
      pure { g with nodes := g.nodes.map fun p => (p.1, p.2.embed f) } := by
  have hnodes : g.nodes.mapM (fun p => do return (p.1, ← p.2.convertM fun x => pure (f x))) =
      (pure (g.nodes.map fun p => (p.1, p.2.embed f)) : m _) :=
    mapM_list_eq fun p _ => by rw [Node.convertM_embed, pure_bind]
  rw [convertM, hnodes, pure_bind]

theorem embed_eq (f : β → α) (g : Graph β) :
    g.embed f = { g with nodes := g.nodes.map fun p => (p.1, p.2.embed f) } :=
  convertM_embed (m := Id) f g

theorem net_embed {id : Text} {n : Node β Text} (hn : g.net id n) : (g.embed f).net id (n.embed f) := by
  rw [embed_eq]
  exact List.mem_map.mpr ⟨(id, n), hn, rfl⟩

theorem of_net_embed {id : Text} {m : Node α Text} (hm : (g.embed f).net id m) :
    ∃ n, g.net id n ∧ m = n.embed f := by
  rw [embed_eq] at hm
  obtain ⟨⟨id, n⟩, hn, ⟨⟩⟩ := List.mem_map.mp hm
  exact ⟨n, hn, rfl⟩

theorem exists_input_of_embed {id : Text} {k : Nat} {sample : α}
    (h : (g.embed f).net id (.input k sample)) : ∃ s, g.net id (.input k s) := by
  obtain ⟨n, hn, hsame⟩ := of_net_embed h
  have hk : n.position? = some k := by rw [← n.position?_embed f, ← hsame]; rfl
  obtain ⟨s, rfl⟩ := Node.eq_input_of_position? hk
  exact ⟨s, hn⟩

theorem WellFormed.embed (hg : g.WellFormed) (f : β → α) : (g.embed f).WellFormed := by
  have hread : g.convertM (m := Except Fault) (fun x => .ok (f x)) = .ok (g.embed f) := by
    rw [embed_eq]
    exact convertM_embed f g
  exact hg.convert hread

theorem slot_embed (f : β → α) (g : Graph β) : (g.embed f).slot = g.slot := by
  rw [embed_eq]
  rfl

theorem net_of_compiles_embed (hg : g.WellFormed) {q : Program β} {p : Program α} (hq : q.Compiles g)
    (hp : p.Compiles (g.embed f)) {i : Nat} {n : Node β Nat} (hn : q.net i n) : p.net i (n.embed f) := by
  have hslot := hp.slots (net_embed (f := f) (hq.maps hn))
  have hsame : ∀ c ∈ (n.embed f).operands, (g.slot ∘ q.name) c = c := fun c hc => by
    rw [n.operands_embed] at hc
    exact hq.slot_name hg (Nat.lt_trans (hq.topological hn c hc) (Program.net_lt_size hn))
  rwa [slot_embed, hq.slot_name hg (Program.net_lt_size hn), Node.map_embed, Node.map_map,
    Node.map_eq_self hsame] at hslot

end Graph

end

section
variable [DecidableEq α] [Hashable α] [Written α] {R : Rules α} {read : β → Except Fault α} {k : Nat}

theorem replayNode_convert {n : Node β ι} {m : Node α ι} (h : n.convertM read = .ok m)
    (f : ι → Build α Nat) :
    n.mapM f >>= replayNode R read k = m.mapM f >>= replayNode R .ok k := by
  cases n with
  | const v =>
    obtain ⟨x, hx, ⟨⟩⟩ := bind_eq_ok.mp h
    simp only [Node.mapM, pure_bind, replayNode, hx]
  | input p s =>
    obtain ⟨x, hx, ⟨⟩⟩ := bind_eq_ok.mp h
    simp only [Node.mapM, pure_bind, replayNode, hx]
  | _ =>
    cases h
    simp only [Node.mapM, bind_assoc, pure_bind]
    rfl

theorem Graph.replay_convert {g : Graph β} {h : Graph α} (hids : g.ids.Nodup)
    (hread : g.convertM read = .ok h) : g.replay R read k = h.replay R .ok k := by
  have hids' : h.ids.Nodup := ids_of_convertM hread ▸ hids
  have hstep : replayId R read k (.ofList g.nodes) = replayId R .ok k (.ofList h.nodes) := by
    funext m id
    unfold replayId
    by_cases hid : id ∈ g.ids
    · obtain ⟨⟨id, n⟩, hp, rfl⟩ := List.mem_map.mp hid
      obtain ⟨n', hn, hpn⟩ := exists_net_of_convertM hread hp
      rw [getElem?_ofList_nodes hids hp, getElem?_ofList_nodes hids' hn]
      dsimp only
      rw [← bind_assoc, replayNode_convert hpn, bind_assoc]
    · have hid' : id ∉ h.ids := ids_of_convertM hread ▸ hid
      rw [getElem?_ofList_nodes_of_notMem hid, getElem?_ofList_nodes_of_notMem hid']
  obtain ⟨-, hsame⟩ := exists_nodes_of_convertM hread
  unfold replay
  rw [hstep, congrArg Graph.order hsame, congrArg Graph.primary hsame, congrArg Graph.secondary hsame]

end
end ScalarGraph
